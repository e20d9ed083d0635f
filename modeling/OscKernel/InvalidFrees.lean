import OscKernel.PageCoalescing

/-!
# `_free` of an address that starts no held block

`_free` takes a null `entry_in_list` for the sign of a held block. The pages inside a block, the
reserved ones and those that a merge left behind carry a null entry too, and `_free` puts them on
the list of whatever order they recorded last.
-/

namespace OscKernel.Mm

variable {st : State} {s : Sys} {ptr : ℕ}

theorem getBuddy_testBit (i order k : ℕ) :
    (getBuddy i order).testBit k = (i.testBit k ^^ decide (order = k)) := by
  rw [getBuddy, Nat.testBit_xor, Nat.one_shiftLeft, Nat.testBit_two_pow]

/-- The upper one of two buddies has the bit of their order set, the lower one has not. -/
theorem buddies_testBit (i order : ℕ) :
    (max i (getBuddy i order)).testBit order = true ∧
      (min i (getBuddy i order)).testBit order = false := by
  have hself := getBuddy_testBit i order order
  rw [decide_eq_true rfl, Bool.xor_true] at hself
  have hhigh : ∀ j, order < j → (getBuddy i order).testBit j = i.testBit j := by
    intro j hj
    rw [getBuddy_testBit, decide_eq_false (by omega), Bool.xor_false]
  cases hi : i.testBit order with
  | false =>
      rw [hi, Bool.not_false] at hself
      have hlt := Nat.lt_of_testBit order hi hself fun j hj => (hhigh j hj).symm
      rw [max_eq_right hlt.le, min_eq_left hlt.le]
      exact ⟨hself, hi⟩
  | true =>
      rw [hi, Bool.not_true] at hself
      have hlt := Nat.lt_of_testBit order hself hi fun j hj => hhigh j hj
      rw [max_eq_left hlt.le, min_eq_right hlt.le]
      exact ⟨hi, hself⟩

theorem freeJoin_order (st : State) (entry curr buddy : ℕ) {order : ℕ} (hk : order < maxOrder) (i : ℕ) :
    ((freeJoin st entry curr buddy order).pageList i).order =
      if i = max curr buddy then (-1 : ℤ) else if i = min curr buddy then ((order + 1 : ℕ) : ℤ)
      else (st.pageList i).order := by
  have hsame := (rmFromFreeList_sameData st entry hk i).order
  simp only [freeJoin, modify_pageList]
  split_ifs <;> first | rfl | exact hsame

/-- The merge loop from order `order` on leaves the pages alone that differ from the current one in
a bit below `order`. -/
theorem freeMerge_order {k j : ℕ} (n : ℕ) {curr order : ℕ} (hk : k < order)
    (hn : order + n = maxOrder - 1) (hcurr : curr.testBit k = false) (hj : j.testBit k = true) :
    ((freeMerge n st curr order).pageList j).order = (st.pageList j).order := by
  induction n generalizing st curr order with
  | zero => rfl
  | succ n ih =>
      have hmax : order < maxOrder := by omega
      have hbuddy : (getBuddy curr order).testBit k = false := by
        rw [getBuddy_testBit, hcurr, decide_eq_false (by omega), Bool.xor_false]
      have hne : ∀ i : ℕ, i.testBit k = false → j ≠ i := by
        rintro i hi rfl
        rw [hj] at hi
        exact Bool.noConfusion hi
      have hinsert : ((freeInsert st curr order).pageList j).order = (st.pageList j).order :=
        ((freeInsert_inserted hmax).elsewhere j (hne curr hcurr)).order
      simp only [freeMerge]
      cases (st.pageList (getBuddy curr order)).entryInList with
      | none => exact hinsert
      | some entry =>
          have hmin : (min curr (getBuddy curr order)).testBit k = false := by
            rcases min_choice curr (getBuddy curr order) with h | h <;> rw [h] <;> assumption
          have hmx : (max curr (getBuddy curr order)).testBit k = false := by
            rcases max_choice curr (getBuddy curr order) with h | h <;> rw [h] <;> assumption
          simp only []
          split_ifs with hord
          · rw [ih (by omega) (by omega) hmin, freeJoin_order st entry _ _ hmax,
              if_neg (hne _ hmx), if_neg (hne _ hmin)]
          · exact hinsert

/-- Entered below the maximum order, the merge loop changes an order or a list entry. -/
theorem freeMerge_changes {n curr order : ℕ} (hn : order + (n + 1) = maxOrder - 1)
    (horder : (st.pageList curr).order = order) (hentry : (st.pageList curr).entryInList = none) :
    (∃ i, ((freeMerge (n + 1) st curr order).pageList i).order ≠ (st.pageList i).order) ∨
      ∃ i, ((freeMerge (n + 1) st curr order).pageList i).entryInList ≠
        (st.pageList i).entryInList := by
  have hmax : order < maxOrder := by omega
  have hinsert : ((freeInsert st curr order).pageList curr).entryInList ≠
      (st.pageList curr).entryInList := by
    rw [(freeInsert_inserted hmax).entry, hentry]
    exact Option.some_ne_none _
  simp only [freeMerge]
  cases (st.pageList (getBuddy curr order)).entryInList with
  | none => exact Or.inr ⟨curr, hinsert⟩
  | some entry =>
      simp only []
      split_ifs with hord
      · -- the upper one of the two buddies loses its order for good
        obtain ⟨hhi, hlo⟩ := buddies_testBit curr order
        refine Or.inl ⟨max curr (getBuddy curr order), ?_⟩
        rw [freeMerge_order n (Nat.lt_succ_self order) (by omega) hlo hhi,
          freeJoin_order st entry _ _ hmax, if_pos rfl]
        rcases max_choice curr (getBuddy curr order) with h | h
        · rw [h, horder]
          omega
        · rw [h, hord, horder]
          omega
      · exact Or.inr ⟨curr, hinsert⟩

/-- `_free(ptr)` changes no free list, order or list entry, makes no page of a held block available,
and does not shift by a negative order. -/
structure Ignored (s : Sys) (ptr : ℕ) : Prop where
  freeList : ∀ k, (free s.mm ptr).freeList k = s.mm.freeList k
  order : ∀ i, ((free s.mm ptr).pageList i).order = (s.mm.pageList i).order
  entry : ∀ i, ((free s.mm ptr).pageList i).entryInList = (s.mm.pageList i).entryInList
  live : ∀ a ∈ s.live, ∀ i ∈ liveSpan a, FreePage (free s.mm ptr) i → FreePage s.mm i
  shift : ptr = 0 ∨ (s.mm.pageList (ptr / pageSize)).entryInList ≠ none ∨
    0 ≤ (s.mm.pageList (ptr / pageSize)).order

def Harmless (st : State) (ptr : ℕ) : Prop :=
  ptr = 0 ∨ (st.pageList (ptr / pageSize)).entryInList ≠ none ∨
    (maxOrder - 1 : ℕ) ≤ (st.pageList (ptr / pageSize)).order

theorem not_harmless (hne : ptr ≠ 0) (hentry : (st.pageList (ptr / pageSize)).entryInList = none)
    (horder : (st.pageList (ptr / pageSize)).order < (maxOrder - 1 : ℕ)) : ¬ Harmless st ptr := by
  rintro (h | h | h)
  · exact hne h
  · exact h hentry
  · exact absurd horder (not_lt.2 h)

theorem free_cases (hp : ptr < memorySize) (hne : ptr ≠ 0)
    (hentry : (st.pageList (ptr / pageSize)).entryInList = none) {order : ℕ}
    (horder : (st.pageList (ptr / pageSize)).order = order) :
    free st ptr = freeMerge (maxOrder - 1 - order) st (ptr / pageSize) order := by
  have hlt : ptr / pageSize < pageNum := by
    apply Nat.div_lt_of_lt_mul
    rw [Nat.mul_comm, pageNum_mul_pageSize]
    exact hp
  have hpos : 0 ≤ ((ptr / pageSize : ℕ) : ℤ) := Int.natCast_nonneg _
  have hlt' : ((ptr / pageSize : ℕ) : ℤ) < pageNum := by exact_mod_cast hlt
  have hcond : ¬ (((ptr / pageSize : ℕ) : ℤ) < 0 ∨ (pageNum : ℤ) ≤ (ptr / pageSize : ℕ) ∨
      (st.pageList (ptr / pageSize)).entryInList ≠ none) := by
    rintro (h | h | h)
    · exact absurd hpos (not_le.2 h)
    · exact absurd hlt' (not_lt.2 h)
    · exact h hentry
  simp only [free, if_neg hne, pageIdx_of_lt hp, Int.toNat_natCast, if_neg hcond, horder,
    if_neg (not_lt.2 (Int.natCast_nonneg order))]

theorem free_harmless (hp : ptr < memorySize) (h : Harmless st ptr) : free st ptr = st := by
  rcases h with rfl | hentry | horder
  · rfl
  · by_cases hne : ptr = 0
    · rw [hne]
      rfl
    · simp only [free, if_neg hne, pageIdx_of_lt hp, Int.toNat_natCast]
      rw [if_pos (Or.inr (Or.inr hentry))]
  · by_cases hne : ptr = 0
    · rw [hne]
      rfl
    by_cases hentry : (st.pageList (ptr / pageSize)).entryInList = none
    · obtain ⟨order, ho⟩ := Int.eq_ofNat_of_zero_le ((Int.natCast_nonneg _).trans horder)
      have hzero : maxOrder - 1 - order = 0 := by omega
      rw [free_cases hp hne hentry ho, hzero]
      rfl
    · simp only [free, if_neg hne, pageIdx_of_lt hp, Int.toNat_natCast]
      rw [if_pos (Or.inr (Or.inr hentry))]

theorem Ignored.harmless (hp : ptr < memorySize) (h : Ignored s ptr) : Harmless s.mm ptr := by
  by_contra hn
  obtain ⟨hne, hn⟩ := not_or.1 hn
  obtain ⟨hentry, hlt⟩ := not_or.1 hn
  rw [not_not] at hentry
  have hnonneg : 0 ≤ (s.mm.pageList (ptr / pageSize)).order := by
    rcases h.shift with h0 | h0 | h0
    · exact absurd h0 hne
    · exact absurd hentry h0
    · exact h0
  obtain ⟨order, horder⟩ := Int.eq_ofNat_of_zero_le hnonneg
  obtain ⟨n, hn⟩ : ∃ n, order + (n + 1) = maxOrder - 1 := by
    rw [horder] at hlt
    exact ⟨maxOrder - 1 - order - 1, by omega⟩
  have hrounds : maxOrder - 1 - order = n + 1 := by omega
  have hcall := free_cases hp hne hentry horder
  rw [hrounds] at hcall
  rcases freeMerge_changes hn horder hentry with ⟨i, hi⟩ | ⟨i, hi⟩
  · exact hi (hcall ▸ h.order i)
  · exact hi (hcall ▸ h.entry i)

/-- `_free` ignores an address exactly if it is null or its page has a list entry or the maximum
order recorded. -/
theorem free_ignored_iff (s : Sys) {ptr : ℕ} (hp : ptr < memorySize) :
    Ignored s ptr ↔ Harmless s.mm ptr := by
  refine ⟨fun h => h.harmless hp, fun h => ?_⟩
  have heq := free_harmless hp h
  refine ⟨fun k => by rw [heq], fun i => by rw [heq], fun i => by rw [heq], ?_, ?_⟩
  · intro a _ i _ hi
    rwa [heq] at hi
  · refine h.imp id (Or.imp id fun horder => ?_)
    exact (Int.natCast_nonneg _).trans horder

/-- Page 2 has been freed and merged with page 3, and page 8193 is inside a held block. A second `_free`
of page 2 is ignored, and one of page 3 or of page 8193 is not. -/
theorem free_ignored_iff_crowded :
    let s := crowded.step (.free (2 * pageSize) pageSize)
    Ignored s (2 * pageSize) ∧ ¬ Ignored s (3 * pageSize) ∧ ¬ Ignored s (8193 * pageSize) := by
  intro s
  have hfreed : Harmless s.mm (2 * pageSize) := by
    have hentry : (s.mm.pageList (2 * pageSize / pageSize)).entryInList = some 2 := by decide +kernel
    exact Or.inr (Or.inl (hentry ▸ Option.some_ne_none 2))
  have hmerged : ¬ Harmless s.mm (3 * pageSize) :=
    not_harmless (by decide) (by decide +kernel) (by decide +kernel)
  have hinner : ¬ Harmless s.mm (8193 * pageSize) :=
    not_harmless (by decide) (by decide +kernel) (by decide +kernel)
  exact ⟨(free_ignored_iff s (by decide)).2 hfreed,
    fun h => hmerged ((free_ignored_iff s (by decide)).1 h),
    fun h => hinner ((free_ignored_iff s (by decide)).1 h)⟩

/-- Page 1 is inside the free block at page 0, and `_free` puts it on the list of order 0. -/
theorem inner_page_freed : ¬ ∀ s, Reachable s → ∀ ptr < memorySize, (∀ a ∈ s.live, a.1 ≠ ptr) →
    Ignored s ptr := by
  intro hall
  have hin : pageSize < memorySize := by decide
  have hign := hall ⟨mmInit, []⟩ Prepared.init.reachable pageSize hin
    fun a ha => absurd ha List.not_mem_nil
  have hpage : mmInit.pageList (pageSize / pageSize) = { zeroPage with cacheOrder := -1 } := by
    decide
  rcases hign.harmless hin with h | h | h
  · exact absurd h pageSize_pos.ne'
  · rw [hpage] at h
    exact h rfl
  · rw [hpage] at h
    exact absurd h (by decide)

end OscKernel.Mm
