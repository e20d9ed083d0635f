import OscKernel.PageConservation

/-!
# Full coalescing

No two free buddies below the maximum order survive a call of `reserve`, `_alloc` or `_free`. The
free pages therefore determine the free lists, whatever stale orders `page_list` still holds. It
follows that blocks can be freed in any order, and that `_alloc` finds every run of free pages of
the size it looks for, save that it cannot return the block at page 0.
-/

namespace OscKernel.Mm

open DyadicBlock Linked Relation

variable {p p' : BlockPool} {B C : DyadicBlock} {fixed : Finset DyadicBlock} {s s' : Sys}

/-- The state after `mm_init` and any calls of `reserve`, each of a nonempty range in memory that
is still free. -/
inductive Prepared : State → Finset ℕ → Prop
  | init : Prepared mmInit ∅
  | reserve {st : State} {reserved : Finset ℕ} {start stop : ℕ} (h : Prepared st reserved)
      (hlt : start < stop) (hle : stop ≤ memorySize)
      (hfree : Disjoint (rangePages start stop) reserved) :
      Prepared (Mm.reserve st start stop) (reserved ∪ rangePages start stop)

def Reachable (s : Sys) : Prop :=
  ∃ st reserved, Prepared st reserved ∧ ReflTransGen (Sys.Step fun _ _ => True) ⟨st, []⟩ s

theorem Prepared.reachable {st : State} {reserved : Finset ℕ} (h : Prepared st reserved) :
    Reachable ⟨st, []⟩ := ⟨st, reserved, h, ReflTransGen.refl⟩

theorem Prepared.bootPool {st : State} {reserved : Finset ℕ} (h : Prepared st reserved) :
    ∃ p, BootPool st reserved p ∧ p.Coalesced (maxOrder - 1) := by
  induction h with
  | init => exact ⟨_, ⟨mmInit_spec.1, mmInit_spec.2, initPool_owned, rfl⟩, initPool_coalesced _⟩
  | reserve _ hlt hle hdisj ih =>
      obtain ⟨p, hp, hco⟩ := ih
      have hfree := rangePages_subset hle hlt
      rw [← hp.owned] at hfree
      have hfree' := Finset.subset_sdiff.2 ⟨hfree, hp.used ▸ hdisj⟩
      rw [← p.freePages_eq] at hfree'
      obtain ⟨p', hr, hco'⟩ := reserve_spec hp.rep hp.clean hlt hfree'
      exact ⟨p', hr.bootPool hp.owned hp.used, hco' hco⟩

/-- The pool of a run is coalesced; a block that was handed out at the null address joins the
blocks that nobody frees. -/
structure Tidy (fixed : Finset DyadicBlock) (s : Sys) (p : BlockPool) : Prop where
  tracks : Tracks fixed s p
  coalesced : p.Coalesced (maxOrder - 1)

theorem Tracks.alloc_zero (h : Tracks fixed s p) {size : ℕ} (hc : candidate s.mm size = some 0) :
    ∃ p' B, Tracks (insert B fixed) (s.step (.alloc size)) p' ∧ Allocated p p' B := by
  obtain ⟨-, -, st', p', B, heq, hrep, hal, -, -⟩ := Mm.alloc_some h.rep hc
  have hstep : s.step (.alloc size) = ⟨st', s.live⟩ := by
    simp only [Sys.step, heq, Nat.zero_mul, if_true]
  rw [hstep]
  refine ⟨p', B, ⟨hrep, ?_, h.nodup, ?_, h.addr⟩, hal⟩
  · rw [hal.used, h.used, Finset.insert_union]
  · intro a ha hmem
    rcases Finset.mem_insert.1 hmem with rfl | hfix
    · exact hal.not_used (h.mem_used ha)
    · exact h.fresh a ha hfix

theorem tidy_stable :
    Runs.Stable (Sys.Step fun _ _ => True) fun s => ∃ fixed p, Tidy fixed s p := by
  rintro s _ ⟨fixed, p, h, hco⟩ ⟨op, hv, -, rfl⟩
  cases op with
  | alloc size =>
      cases hc : candidate s.mm size with
      | none => exact ⟨fixed, p, (h.alloc_null hc).symm ▸ h, hco⟩
      | some b =>
          by_cases hb : b = 0
          · subst hb
            obtain ⟨p', B, h', hal⟩ := h.alloc_zero hc
            exact ⟨_, p', h', hal.coalesced hco⟩
          · obtain ⟨p', B, h', hal, -⟩ := h.alloc_some hc hb
            exact ⟨fixed, p', h', hal.coalesced hco⟩
  | free ptr size =>
      obtain ⟨p', h', hf | hl⟩ := h.free hv
      · exact ⟨fixed, p', h', hf.coalesced hco⟩
      · exact ⟨fixed, p', h', hl.coalesced hco⟩

theorem Reachable.tidy (h : Reachable s) : ∃ fixed p, Tidy fixed s p := by
  obtain ⟨st, reserved, hst, hrun⟩ := h
  obtain ⟨p, hp, hco⟩ := hst.bootPool
  have hstart : Tidy p.used ⟨st, []⟩ p := ⟨hp.rep.tracks, hco⟩
  exact tidy_stable.run ⟨p.used, p, hstart⟩ hrun

theorem Tidy.order_le (h : Tidy fixed s p) : ∀ B ∈ p.free, B.order ≤ maxOrder - 1 := by
  intro B hB
  have := (h.tracks.rep.bound B (p.mem_blocks_of_free hB)).1
  omega

section Settle

variable {α : Type*} [DecidableEq α] {R S F X Y : Finset α}

def settle (R F X : Finset α) : Finset α := if R ⊆ F ∪ X then (F ∪ X) \ R else F ∪ X

theorem settle_of_disjoint (hYF : Disjoint Y F) (hXY : Disjoint X Y) (hY : Y ⊆ R)
    (hne : Y.Nonempty) : settle R F X = F ∪ X := by
  obtain ⟨y, hy⟩ := hne
  refine if_neg fun hsub => ?_
  rcases Finset.mem_union.1 (hsub (hY hy)) with hF | hX
  · exact Finset.disjoint_left.1 hYF hy hF
  · exact Finset.disjoint_left.1 hXY hX hy

/-- Two parts of one region: the first never completes it. -/
theorem settle_comm_same (hXF : Disjoint X F) (hYF : Disjoint Y F) (hXY : Disjoint X Y)
    (hX : X ⊆ R) (hY : Y ⊆ R) (hXne : X.Nonempty) (hYne : Y.Nonempty) :
    settle R (settle R F X) Y = settle R (settle R F Y) X := by
  rw [settle_of_disjoint hYF hXY hY hYne, settle_of_disjoint hXF hXY.symm hX hXne, settle, settle,
    Finset.union_right_comm]

theorem subset_settle_iff (hRS : Disjoint R S) (hX : X ⊆ R) :
    S ⊆ settle R F X ∪ Y ↔ S ⊆ F ∪ Y := by
  refine forall₂_congr fun i hi => ?_
  have hiR : i ∉ R := fun h => Finset.disjoint_left.1 hRS h hi
  have hiX : i ∉ X := fun h => hiR (hX h)
  rw [settle]
  split_ifs <;> simp only [Finset.mem_union, Finset.mem_sdiff] <;> tauto

theorem settle_union (hRS : Disjoint R S) (hY : Y ⊆ S) :
    settle R F X ∪ Y = if R ⊆ F ∪ X then (F ∪ X ∪ Y) \ R else F ∪ X ∪ Y := by
  rw [settle]
  split_ifs
  · ext i
    have hiY : i ∈ Y → i ∉ R := fun h hR => Finset.disjoint_left.1 hRS hR (hY h)
    simp only [Finset.mem_union, Finset.mem_sdiff]
    tauto
  · rfl

/-- Parts of two disjoint regions do not see each other. -/
theorem settle_comm_disjoint (hRS : Disjoint R S) (hX : X ⊆ R) (hY : Y ⊆ S) :
    settle S (settle R F X) Y = settle R (settle S F Y) X := by
  conv_lhs => rw [settle]
  conv_rhs => rw [settle]
  rw [if_congr (subset_settle_iff hRS hX) rfl rfl, if_congr (subset_settle_iff hRS.symm hY) rfl rfl,
    settle_union hRS hY, settle_union hRS.symm hX, Finset.union_right_comm F X Y]
  split_ifs
  · exact sdiff_right_comm _ _ _
  · rfl
  · rfl
  · rfl

end Settle

/-- The free pages after `_free` of the block `B`: a region with no other page in use is lost. -/
def freedPages (F : Finset ℕ) (B : DyadicBlock) : Finset ℕ :=
  settle (region B.start).pages F B.pages

theorem usedPages_insert_erase (hB : B ∈ p.used) (hu : p'.used = p.used.erase B) :
    p.usedPages = p'.usedPages ∪ B.pages := by
  rw [BlockPool.usedPages, BlockPool.usedPages, hu, Finset.union_comm, ← Finset.biUnion_insert,
    Finset.insert_erase hB]

theorem freePages_of_owned (hB : B ∈ p.used) (hu : p'.used = p.used.erase B) {X : Finset ℕ}
    (hown : p'.owned = p.owned \ X) : p'.freePages = (p.freePages ∪ B.pages) \ X := by
  have hdisj : Disjoint B.pages p'.usedPages := by
    rw [Finset.disjoint_left]
    intro i hiB hi
    obtain ⟨C, hC, hiC⟩ := p'.mem_usedPages.1 hi
    rw [hu, Finset.mem_erase] at hC
    exact hC.1 (p.eq_of_mem (p.mem_blocks_of_used hC.2) (p.mem_blocks_of_used hB) hiC hiB)
  have hfree := p.disjoint_freePages_usedPages
  rw [usedPages_insert_erase hB hu, Finset.disjoint_union_right] at hfree
  rw [p'.freePages_eq, hown, BlockPool.owned, usedPages_insert_erase hB hu]
  ext i
  have h₁ : i ∈ B.pages → i ∉ p'.usedPages := fun hi => Finset.disjoint_left.1 hdisj hi
  have h₂ : i ∈ p.freePages → i ∉ p'.usedPages := fun hi => Finset.disjoint_left.1 hfree.1 hi
  simp only [Finset.mem_sdiff, Finset.mem_union]
  tauto

theorem Tidy.free (h : Tidy fixed s p) {a : ℕ × ℕ} (ha : a ∈ s.live) :
    ∃ p', Tidy fixed (s.step (.free a.1 a.2)) p' ∧
      p'.freePages = freedPages p.freePages (liveBlock a) := by
  have hu := h.tracks.mem_used ha
  obtain ⟨p', h', hf | hl⟩ := h.tracks.free ha
  · refine ⟨p', ⟨h', hf.coalesced h.coalesced⟩, ?_⟩
    rw [freedPages, settle, if_neg (hf.blocked h.coalesced),
      freePages_of_owned hu hf.used (X := ∅) (by rw [hf.owned, Finset.sdiff_empty]),
      Finset.sdiff_empty]
  · refine ⟨p', ⟨h', hl.coalesced h.coalesced⟩, ?_⟩
    rw [freedPages, settle, if_pos hl.rest, freePages_of_owned hu hl.used hl.owned]

theorem region_eq_or_disjoint (i j : ℕ) :
    region i = region j ∨ Disjoint (region i).pages (region j).pages := by
  by_cases hd : Disjoint (region i).pages (region j).pages
  · exact Or.inr hd
  · obtain ⟨x, hxi, hxj⟩ := Finset.not_disjoint_iff.1 hd
    exact Or.inl (eq_of_mem_of_order_eq rfl hxi hxj)

theorem pages_subset_region (ho : B.order ≤ maxOrder - 1) : B.pages ⊆ (region B.start).pages :=
  subset_of_mem_of_order_le (by rw [containing_order]; exact ho) B.start_mem_pages
    (mem_containing _ _)

/-- Freeing two blocks outside `F` gives the same free pages in either order. -/
theorem freedPages_comm {F : Finset ℕ} (hB : B.order ≤ maxOrder - 1) (hC : C.order ≤ maxOrder - 1)
    (hBF : Disjoint B.pages F) (hCF : Disjoint C.pages F) (hBC : Disjoint B.pages C.pages) :
    freedPages (freedPages F B) C = freedPages (freedPages F C) B := by
  have hBR := pages_subset_region hB
  have hCR := pages_subset_region hC
  unfold freedPages
  rcases region_eq_or_disjoint B.start C.start with hreg | hdisj
  · rw [← hreg] at hCR ⊢
    exact settle_comm_same hBF hCF hBC hBR hCR ⟨_, B.start_mem_pages⟩ ⟨_, C.start_mem_pages⟩
  · exact settle_comm_disjoint hdisj hBR hCR

def SameFree (st st' : State) : Prop := ∀ k < maxOrder, ∀ i, OnList st k i ↔ OnList st' k i

theorem sameFree_of_free_eq {st st' : State} (h : Rep st p) (h' : Rep st' p')
    (hfree : p.free = p'.free) : SameFree st st' := by
  intro k hk i
  rw [onList_iff h hk, onList_iff h' hk, freeAt, freeAt, hfree]

theorem SameFree.freePages {st st' : State} (hs : SameFree st st') (h : Rep st p)
    (h' : Rep st' p') : p.freePages = p'.freePages := by
  have hmem : ∀ {st st' : State} {p p' : BlockPool}, SameFree st st' → Rep st p → Rep st' p' →
      p.free ⊆ p'.free := by
    intro st st' p p' hs h h' B hB
    have hk := (h.bound B (p.mem_blocks_of_free hB)).1
    have hl := (hs _ hk _).1 ((onList_iff h hk _).2 ⟨B, hB, rfl, rfl⟩)
    obtain ⟨C, hC, ho, hst⟩ := (onList_iff h' hk _).1 hl
    exact DyadicBlock.ext hst ho ▸ hC
  rw [BlockPool.freePages, BlockPool.freePages,
    Finset.Subset.antisymm (hmem hs h h') (hmem (fun k hk i => (hs k hk i).symm) h' h)]

theorem Tidy.sameFree (h : Tidy fixed s p) (h' : Tidy fixed s' p')
    (hpages : p.freePages = p'.freePages) : SameFree s.mm s'.mm :=
  sameFree_of_free_eq h.tracks.rep h'.tracks.rep
    (h.coalesced.free_eq h'.coalesced h.order_le h'.order_le hpages)

structure SameBlocks (s s' : Sys) : Prop where
  free : SameFree s.mm s'.mm
  live : s.live = s'.live

def freeAll (s : Sys) (l : List (ℕ × ℕ)) : Sys := l.foldl (fun s a => s.step (.free a.1 a.2)) s

variable {a b : ℕ × ℕ} {l l' : List (ℕ × ℕ)}

theorem Tidy.free_congr (h : Tidy fixed s p) (h' : Tidy fixed s' p') (hs : SameBlocks s s')
    (ha : a ∈ s.live) : SameBlocks (s.step (.free a.1 a.2)) (s'.step (.free a.1 a.2)) := by
  obtain ⟨q, hq, hpages⟩ := h.free ha
  obtain ⟨q', hq', hpages'⟩ := h'.free (hs.live ▸ ha)
  refine ⟨hq.sameFree hq' ?_, congrArg (List.erase · a) hs.live⟩
  rw [hpages, hpages', hs.free.freePages h.tracks.rep h'.tracks.rep]

theorem mem_live_free (hne : b ≠ a) (hb : b ∈ s.live) : b ∈ (s.step (.free a.1 a.2)).live :=
  (List.mem_erase_of_ne hne).2 hb

theorem Tidy.free_comm (h : Tidy fixed s p) (ha : a ∈ s.live) (hb : b ∈ s.live) (hne : a ≠ b) :
    SameBlocks ((s.step (.free a.1 a.2)).step (.free b.1 b.2))
      ((s.step (.free b.1 b.2)).step (.free a.1 a.2)) := by
  obtain ⟨p₁, h₁, hp₁⟩ := h.free ha
  obtain ⟨p₂, h₂, hp₂⟩ := h.free hb
  obtain ⟨q₁, hq₁, hpages₁⟩ := h₁.free (mem_live_free hne.symm hb)
  obtain ⟨q₂, hq₂, hpages₂⟩ := h₂.free (mem_live_free hne ha)
  refine ⟨hq₁.sameFree hq₂ ?_, List.erase_comm a b⟩
  have hau := h.tracks.mem_used ha
  have hbu := h.tracks.mem_used hb
  have hbound : ∀ C ∈ p.used, C.order ≤ maxOrder - 1 ∧ Disjoint C.pages p.freePages := by
    intro C hC
    have ho := (h.tracks.rep.bound C (p.mem_blocks_of_used hC)).1
    refine ⟨by omega, p.disjoint_freePages_usedPages.symm.mono_left fun i hi => ?_⟩
    exact p.mem_usedPages.2 ⟨C, hC, hi⟩
  have hblocks : liveBlock a ≠ liveBlock b := fun he =>
    hne (List.inj_on_of_nodup_map h.tracks.nodup ha hb he)
  rw [hpages₁, hpages₂, hp₁, hp₂]
  exact freedPages_comm (hbound _ hau).1 (hbound _ hbu).1 (hbound _ hau).2 (hbound _ hbu).2
    (disjoint_of_ne (p.mem_blocks_of_used hau) (p.mem_blocks_of_used hbu) hblocks)

theorem SameBlocks.refl (s : Sys) : SameBlocks s s := ⟨fun _ _ _ => Iff.rfl, rfl⟩

theorem SameBlocks.trans {s'' : Sys} (h : SameBlocks s s') (h' : SameBlocks s' s'') :
    SameBlocks s s'' :=
  ⟨fun k hk i => (h.free k hk i).trans (h'.free k hk i), h.live.trans h'.live⟩

theorem Tidy.freeAll_congr (h : Tidy fixed s p) (h' : Tidy fixed s' p') (hs : SameBlocks s s')
    (hl : l.Nodup) (hmem : l ⊆ s.live) : SameBlocks (freeAll s l) (freeAll s' l) := by
  induction l generalizing s s' p p' with
  | nil => exact hs
  | cons a l ih =>
      obtain ⟨hal, hl⟩ := List.nodup_cons.1 hl
      have ha := hmem List.mem_cons_self
      obtain ⟨q, hq, -⟩ := h.free ha
      obtain ⟨q', hq', -⟩ := h'.free (hs.live ▸ ha)
      refine ih hq hq' (h.free_congr h' hs ha) hl fun b hb => ?_
      exact mem_live_free (fun he => hal (he ▸ hb)) (hmem (List.mem_cons_of_mem a hb))

theorem Tidy.freeAll_perm (h : Tidy fixed s p) (hp : l.Perm l') (hl : l.Nodup)
    (hmem : l ⊆ s.live) : SameBlocks (freeAll s l) (freeAll s l') := by
  induction hp generalizing s p with
  | nil => exact SameBlocks.refl s
  | cons a _ ih =>
      obtain ⟨hal, hl⟩ := List.nodup_cons.1 hl
      obtain ⟨q, hq, -⟩ := h.free (hmem List.mem_cons_self)
      refine ih hq hl fun b hb => ?_
      exact mem_live_free (fun he => hal (he ▸ hb)) (hmem (List.mem_cons_of_mem a hb))
  | swap a b l =>
      obtain ⟨hb, hl⟩ := List.nodup_cons.1 hl
      obtain ⟨ha, hl⟩ := List.nodup_cons.1 hl
      have hne : b ≠ a := fun he => hb (he ▸ List.mem_cons_self)
      have hbm : b ∈ s.live := hmem List.mem_cons_self
      have ham : a ∈ s.live := hmem (List.mem_cons_of_mem b List.mem_cons_self)
      obtain ⟨p₁, h₁, -⟩ := h.free hbm
      obtain ⟨p₂, h₂, -⟩ := h.free ham
      obtain ⟨q₁, hq₁, -⟩ := h₁.free (mem_live_free hne.symm ham)
      obtain ⟨q₂, hq₂, -⟩ := h₂.free (mem_live_free hne hbm)
      refine hq₁.freeAll_congr hq₂ (h.free_comm hbm ham hne) hl fun c hc => ?_
      have hca : c ≠ a := fun he => ha (he ▸ hc)
      have hcb : c ≠ b := fun he => hb (List.mem_cons_of_mem a (he ▸ hc))
      exact mem_live_free hca (mem_live_free hcb
        (hmem (List.mem_cons_of_mem b (List.mem_cons_of_mem a hc))))
  | trans hp₁ _ ih₁ ih₂ =>
      exact (ih₁ h hl hmem).trans (ih₂ h (hp₁.nodup_iff.1 hl) fun c hc => hmem (hp₁.mem_iff.2 hc))

/-- Two held blocks can be freed in either order, and any set of held blocks in any order. -/
theorem free_order_independent {s : Sys} (h : Reachable s) :
    (∀ a ∈ s.live, ∀ b ∈ s.live, a ≠ b →
      SameBlocks ((s.step (.free a.1 a.2)).step (.free b.1 b.2))
        ((s.step (.free b.1 b.2)).step (.free a.1 a.2))) ∧
    ∀ l l' : List (ℕ × ℕ), l.Nodup → l ⊆ s.live → l.Perm l' →
      SameBlocks (freeAll s l) (freeAll s l') := by
  obtain ⟨fixed, p, hs⟩ := h.tidy
  exact ⟨fun a ha b hb hne => hs.free_comm ha hb hne,
    fun l l' hl hmem hp => hs.freeAll_perm hp hl hmem⟩

theorem Reachable.alloc (h : Reachable s) (size : ℕ) : Reachable (s.step (.alloc size)) := by
  obtain ⟨st, reserved, hprep, hrun⟩ := h
  exact ⟨st, reserved, hprep, hrun.tail ⟨.alloc size, trivial, trivial, rfl⟩⟩

theorem Reachable.free (h : Reachable s) (ha : a ∈ s.live) : Reachable (s.step (.free a.1 a.2)) := by
  obtain ⟨st, reserved, hprep, hrun⟩ := h
  exact ⟨st, reserved, hprep, hrun.tail ⟨.free a.1 a.2, ha, trivial, rfl⟩⟩

theorem Reachable.allocs (h : Reachable s) (size n : ℕ) :
    Reachable ((fun s : Sys => s.step (.alloc size))^[n] s) := by
  induction n with
  | zero => exact h
  | succ n ih =>
      rw [Function.iterate_succ_apply']
      exact ih.alloc size

def twoPages : Sys := ((Sys.mk mmInit []).step (.alloc pageSize)).step (.alloc pageSize)

theorem twoPages_reachable : Reachable twoPages :=
  (Prepared.init.reachable.alloc pageSize).alloc pageSize

theorem free_order_independent_two_pages :
    SameBlocks (freeAll twoPages [(973082624, pageSize), (973078528, pageSize)])
      (freeAll twoPages [(973078528, pageSize), (973082624, pageSize)]) := by
  have hlive : twoPages.live = [(973082624, pageSize), (973078528, pageSize)] := by decide +kernel
  refine (free_order_independent twoPages_reachable).2 _ _ (by decide) ?_ (List.Perm.swap _ _ _)
  rw [hlive]
  exact List.Subset.refl _

def NoFreeBuddies (st : State) : Prop :=
  ∀ k < maxOrder - 1, ∀ i, OnList st k i → ¬ OnList st k (getBuddy i k)

def FreeRun (st : State) (k : ℕ) : Prop :=
  ∃ i, 2 ^ k ∣ i ∧ ∀ j ∈ span i k, ∃ k' < maxOrder, ∃ i', OnList st k' i' ∧ j ∈ span i' k'

theorem Tidy.noFreeBuddies (h : Tidy fixed s p) : NoFreeBuddies s.mm := by
  intro k hk i hi hb
  have hmax : k < maxOrder := by omega
  obtain ⟨B, hB, rfl, rfl⟩ := (onList_iff h.tracks.rep hmax i).1 hi
  rw [getBuddy_start] at hb
  obtain ⟨C, hC, ho, hs⟩ := (onList_iff h.tracks.rep hmax _).1 hb
  have hCb : C = B.buddy := DyadicBlock.ext hs ho
  exact h.coalesced B hB hk (hCb ▸ hC)

theorem freeRun_iff {st : State} (h : Rep st p) (k : ℕ) :
    FreeRun st k ↔ ∃ B : DyadicBlock, B.order = k ∧ B.pages ⊆ p.freePages := by
  constructor
  · rintro ⟨i, hdvd, hall⟩
    exact ⟨⟨i, k, hdvd⟩, rfl, fun j hj => (freePage_iff h j).1 (hall j hj)⟩
  · rintro ⟨B, rfl, hsub⟩
    exact ⟨B.start, B.aligned, fun j hj => (freePage_iff h j).2 (hsub hj)⟩

theorem Tidy.freeRun_iff_candidate (h : Tidy fixed s p) {size : ℕ} (hs : 0 < size)
    (hmax : size ≤ maxAllocSize) :
    FreeRun s.mm (reqOrder size) ↔ candidate s.mm size ≠ none := by
  rw [freeRun_iff h.tracks.rep, ne_eq, candidate_none_iff h.tracks.rep hs hmax, not_forall]
  constructor
  · rintro ⟨B, ho, hsub⟩
    have hlt := reqOrder_lt hmax
    obtain ⟨C, hC, hBC⟩ := h.coalesced.mem_free_of_subset hsub (by omega)
    have hle := order_le_of_subset hBC
    exact ⟨C, fun hall => absurd (hall hC) (by omega)⟩
  · rintro ⟨C, hC⟩
    obtain ⟨hCf, hlt⟩ := Classical.not_imp.1 hC
    refine ⟨containing C.start (reqOrder size), rfl, fun i hi => ?_⟩
    exact p.mem_freePages.2 ⟨C, hCf, subset_of_mem_of_order_le (by rw [containing_order]; omega)
      (mem_containing _ _) C.start_mem_pages hi⟩

theorem alloc_eq_null_iff {st : State} (h : Rep st p) (size : ℕ) :
    (alloc st size).2 = 0 ↔ candidate st size = none ∨ candidate st size = some 0 := by
  cases hc : candidate st size with
  | none => simp [alloc_none h hc]
  | some b =>
      obtain ⟨-, -, st', p', B, heq, -⟩ := Mm.alloc_some h hc
      have hpos := pageSize_pos
      rw [heq, Nat.mul_eq_zero]
      simp [hpos.ne']

theorem Tidy.complete_iff (h : Tidy fixed s p) {size : ℕ} (hs : 0 < size)
    (hmax : size ≤ maxAllocSize) :
    ((alloc s.mm size).2 = 0 → ¬ FreeRun s.mm (reqOrder size)) ↔ ¬ PageZeroNext s.mm size := by
  rw [h.freeRun_iff_candidate hs hmax, alloc_eq_null_iff h.tracks.rep, pageZeroNext_iff, not_not]
  constructor
  · intro himp hc
    have hnone := himp (Or.inr hc)
    rw [hc] at hnone
    exact absurd hnone (by simp)
  · rintro hz (hnone | hc)
    · exact hnone
    · exact absurd hc hz

/-- No free buddies are left apart, and a search that ends in the null pointer has found no run of
free pages, unless the block to hand out was the one at page 0. -/
theorem alloc_complete_iff {s : Sys} (h : Reachable s) :
    NoFreeBuddies s.mm ∧ ∀ size order, 0 < size → size ≤ maxAllocSize →
      IsLeast {k | size ≤ 2 ^ k * pageSize} order →
      (((alloc s.mm size).2 = 0 → ¬ FreeRun s.mm order) ↔ ¬ PageZeroNext s.mm size) := by
  obtain ⟨fixed, p, hs⟩ := h.tidy
  refine ⟨hs.noFreeBuddies, fun size order hpos hmax hleast => ?_⟩
  rw [hleast.unique (reqOrder_isLeast hmax)]
  exact hs.complete_iff hpos hmax

def crowded : Sys :=
  let largest : Sys := (fun s : Sys => s.step (.alloc maxAllocSize))^[29] ⟨reserve mmInit 0 pageSize, []⟩
  (largest.step (.alloc pageSize)).step (.alloc pageSize)

theorem crowded_reachable : Reachable crowded := by
  have hdisj : Disjoint (rangePages 0 pageSize) ∅ := Finset.disjoint_empty_right _
  have hprep := (Prepared.init.reserve pageSize_pos (by decide) hdisj).reachable
  exact ((hprep.allocs maxAllocSize 29).alloc pageSize).alloc pageSize

/-- Page 2 is freed and merged with page 3. There are free blocks of most orders, and no largest block is
left to be found. -/
theorem alloc_complete_iff_crowded :
    let s := crowded.step (.free (2 * pageSize) pageSize)
    s.mm.freeList 1 = some 2 ∧ NoFreeBuddies s.mm ∧ (alloc s.mm maxAllocSize).2 = 0 ∧
      ¬ FreeRun s.mm (reqOrder maxAllocSize) := by
  intro s
  have hheld : (2 * pageSize, pageSize) ∈ crowded.live := by decide +kernel
  have hnext : ¬ PageZeroNext s.mm maxAllocSize := by
    rintro ⟨-, -, k, hk, -, -, hhead⟩
    have hall : ∀ k < maxOrder, s.mm.freeList k ≠ some 0 := by decide +kernel
    exact hall k hk hhead
  obtain ⟨hbud, hsearch⟩ := alloc_complete_iff (crowded_reachable.free hheld)
  have hleast := reqOrder_isLeast (le_refl maxAllocSize)
  have hnull : (alloc s.mm maxAllocSize).2 = 0 := by decide +kernel
  have hrun := (hsearch maxAllocSize _ (by decide) le_rfl hleast).2 hnext hnull
  exact ⟨by decide +kernel, hbud, hnull, hrun⟩

/-- With only page 0 free, a request for one byte fails. -/
theorem last_page_null {st : State} (h : Rep st p) (hfree : p.freePages = {0}) :
    FreeRun st (reqOrder 1) ∧ (alloc st 1).2 = 0 := by
  have hone : reqOrder 1 = 0 := by decide
  constructor
  · refine (freeRun_iff h _).2 ⟨containing 0 0, hone.symm, fun i hi => ?_⟩
    have hi0 : i = 0 := by simpa [containing, pages] using hi
    rw [hfree, hi0]
    exact Finset.mem_singleton_self 0
  · rw [alloc_eq_null_iff h]
    cases hc : candidate st 1 with
    | none => exact Or.inl rfl
    | some b =>
        obtain ⟨-, -, st', p', B, -, -, hal, rfl, -⟩ := Mm.alloc_some h hc
        have hb := hal.pages B.start_mem_pages
        rw [hfree, Finset.mem_singleton] at hb
        exact Or.inr (congrArg some hb)

/-- With all pages but page 0 reserved, the last free page cannot be allocated. -/
theorem page_zero_not_allocated : ¬ ∀ s, Reachable s → NoFreeBuddies s.mm ∧
    ∀ size order, 0 < size → size ≤ maxAllocSize → IsLeast {k | size ≤ 2 ^ k * pageSize} order →
      (alloc s.mm size).2 = 0 → ¬ FreeRun s.mm order := by
  intro hall
  have hprep : Prepared (reserve mmInit pageSize memorySize) (∅ ∪ rangePages pageSize memorySize) :=
    Prepared.init.reserve (by decide) le_rfl (Finset.disjoint_empty_right _)
  obtain ⟨p, hp, -⟩ := hprep.bootPool
  have hfree : p.freePages = {0} := by
    have hlast : (memorySize - 1) / pageSize + 1 = pageNum := by decide
    have hfirst : pageSize / pageSize = 1 := by decide
    have hpos : 0 < pageNum := by decide
    rw [p.freePages_eq, hp.owned, hp.used, rangePages, hfirst]
    ext i
    simp only [Finset.mem_sdiff, Finset.mem_range, Finset.mem_union, Finset.mem_Icc,
      Finset.notMem_empty, false_or, Finset.mem_singleton]
    omega
  have hmax : 1 ≤ maxAllocSize := by decide
  have hleast := reqOrder_isLeast hmax
  obtain ⟨hrun, hnull⟩ := last_page_null hp.rep hfree
  generalize reserve mmInit pageSize memorySize = st at hprep hrun hnull
  exact (hall _ hprep.reachable).2 1 (reqOrder 1) one_pos hmax hleast hnull hrun

end OscKernel.Mm
