import OscKernel.HeapSafety
import Mathlib.Data.Set.Card

/-!
# The chunks of a size class are conserved

The ledger of a run counts, for each class, the chunks on the list, the chunks that clients hold and
the pages that were carved on demand. A page that `kmem_cache_init` carves brings all the chunks
that fit, one that `request_page` carves brings one chunk less, and no other step changes the sum.
-/

namespace OscKernel.Alloc

open Linked Mm Relation

variable {fixed : Finset DyadicBlock} {carved : List (ℕ × ℕ)} {F : ℕ → ℕ → Prop} {s : Sys}
  {st : State} {live : List (ℕ × ℕ)} {p : BlockPool} {a : ℕ × ℕ} {c e i size : ℕ} {L : Layout}
  {demand : ℕ → ℕ}

def InClass (c : ℕ) (a : ℕ × ℕ) : Bool := decide (a.2 ≤ maxChunkSize ∧ cacheOf a.2 = c)

def chunksOfPage (c : ℕ) : ℕ := pageSize / slot c

structure Ledger (demand : ℕ → ℕ) (carved : List (ℕ × ℕ)) (F : ℕ → ℕ → Prop) (live : List (ℕ × ℕ)) :
    Prop where
  finite : ∀ c, {e | F c e}.Finite
  count : ∀ c, {e | F c e}.ncard + live.countP (InClass c) + demand c =
    carved.countP (fun x => x.2 = c) * chunksOfPage c

theorem Ledger.nil : Ledger (fun _ => 0) [] (fun _ _ => False) [] :=
  ⟨fun _ => Set.finite_empty, fun c => by
    rw [List.countP_nil, List.countP_nil, Nat.zero_mul, show {e : ℕ | False} = ∅ from rfl,
      Set.ncard_empty]⟩

theorem inClass_iff : InClass c a = true ↔ a.2 ≤ maxChunkSize ∧ cacheOf a.2 = c :=
  decide_eq_true_iff

theorem inClass_large (hl : maxChunkSize < a.2) : ¬ InClass c a = true :=
  fun h => absurd (inClass_iff.1 h).1 (not_le.2 hl)

theorem Ledger.large (h : Ledger demand carved F live) (hl : maxChunkSize < a.2) :
    Ledger demand carved F (a :: live) := by
  refine ⟨h.finite, fun c => ?_⟩
  rw [List.countP_cons_of_neg (inClass_large hl)]
  exact h.count c

theorem countP_erase_eq {q : ℕ × ℕ → Bool} (ha : a ∈ live) :
    live.countP q = (live.erase a).countP q + if q a then 1 else 0 := by
  rw [(List.perm_cons_erase ha).countP_eq q, List.countP_cons]

theorem Ledger.eraseLarge (h : Ledger demand carved F live) (ha : a ∈ live)
    (hl : maxChunkSize < a.2) : Ledger demand carved F (live.erase a) := by
  refine ⟨h.finite, fun c => ?_⟩
  have hcount := h.count c
  rw [countP_erase_eq ha, if_neg (inClass_large hl), Nat.add_zero] at hcount
  exact hcount

/-- A chunk goes from the list of its class to a client. -/
theorem Ledger.pop (h : Ledger demand carved F live) (he : F c e) (honce : ∀ c', F c' e → c' = c)
    (ha : ∀ c', InClass c' a = true ↔ c' = c) :
    Ledger demand carved (fun c' i => F c' i ∧ i ≠ e) (a :: live) := by
  refine ⟨fun c' => (h.finite c').subset fun i hi => hi.1, fun c' => ?_⟩
  have hset : {i | F c' i ∧ i ≠ e} = {i | F c' i} \ {e} := rfl
  have hcount := h.count c'
  rw [hset, List.countP_cons]
  by_cases hc : c' = c
  · have hmem : e ∈ {i | F c' i} := hc ▸ he
    have hcard := Set.ncard_sdiff_singleton_add_one hmem (h.finite c')
    rw [if_pos ((ha c').2 hc)]
    omega
  · have hmem : e ∉ {i | F c' i} := fun hm => hc (honce c' hm)
    rw [Set.sdiff_singleton_eq_self hmem, if_neg fun hin => hc ((ha c').1 hin)]
    exact hcount

/-- A chunk goes from a client back to the list of its class. -/
theorem Ledger.push (h : Ledger demand carved F live) (hfresh : ∀ c', ¬ F c' e) (ha : a ∈ live)
    (hc : ∀ c', InClass c' a = true ↔ c' = c) :
    Ledger demand carved (fun c' i => F c' i ∨ (c' = c ∧ i = e)) (live.erase a) := by
  have hset : ∀ c', {i | F c' i ∨ (c' = c ∧ i = e)} =
      if c' = c then insert e {i | F c' i} else {i | F c' i} := by
    intro c'
    ext i
    split_ifs with hcc
    · simp only [hcc, true_and, Set.mem_ofPred_eq, Set.mem_insert_iff, or_comm]
    · simp only [hcc, false_and, or_false]
  constructor
  · intro c'
    rw [hset]
    split_ifs
    · exact (h.finite c').insert e
    · exact h.finite c'
  · intro c'
    have hcount := h.count c'
    rw [countP_erase_eq ha] at hcount
    rw [hset]
    by_cases hcc : c' = c
    · have hnew : e ∉ {i | F c' i} := hfresh c'
      rw [if_pos ((hc c').2 hcc)] at hcount
      rw [if_pos hcc, Set.ncard_insert_of_notMem hnew (h.finite c')]
      omega
    · rw [if_neg fun hin => hcc ((hc c').1 hin)] at hcount
      rw [if_neg hcc]
      exact hcount

/-- A page brings its first `n` chunks; what it lacks is noted as demand. -/
theorem Ledger.carve {demand' : ℕ → ℕ} {page n : ℕ} (h : Ledger demand carved F live)
    (hnew : ∀ c', ∀ j < n, ¬ F c' (page + j * slot c))
    (hd : ∀ c', demand' c' + (if c' = c then n else 0) =
      demand c' + if c' = c then chunksOfPage c else 0) :
    Ledger demand' ((page, c) :: carved)
      (fun c' e => F c' e ∨ (c' = c ∧ ∃ j < n, e = page + j * slot c)) live := by
  set chunks : Finset ℕ := (Finset.range n).image fun j => page + j * slot c
  have hcard : chunks.card = n := by
    rw [Finset.card_image_of_injective, Finset.card_range]
    intro j k hjk
    exact Nat.eq_of_mul_eq_mul_right (slot_pos c) (Nat.add_left_cancel hjk)
  have hset : ∀ c', {e | F c' e ∨ (c' = c ∧ ∃ j < n, e = page + j * slot c)} =
      if c' = c then {e | F c' e} ∪ chunks else {e | F c' e} := by
    intro c'
    ext e
    split_ifs with hcc
    · simp only [hcc, true_and, Set.mem_ofPred_eq, Set.mem_union, chunks, Finset.coe_image,
        Set.mem_image, Finset.coe_range, Set.mem_Iio, eq_comm]
    · simp only [hcc, false_and, or_false]
  constructor
  · intro c'
    rw [hset]
    split_ifs
    · exact (h.finite c').union (Finset.finite_toSet chunks)
    · exact h.finite c'
  · intro c'
    have hcount := h.count c'
    have hdc := hd c'
    rw [hset, List.countP_cons]
    by_cases hcc : c' = c
    · subst hcc
      have hdisj : Disjoint {e | F c' e} (chunks : Set ℕ) := by
        rw [Set.disjoint_left]
        rintro e he hm
        obtain ⟨j, hj, rfl⟩ := Finset.mem_image.1 (Finset.mem_coe.1 hm)
        exact hnew c' j (Finset.mem_range.1 hj) he
      rw [if_pos rfl, if_pos rfl] at hdc
      rw [if_pos rfl, Set.ncard_union_eq hdisj (h.finite c') (Finset.finite_toSet chunks),
        Set.ncard_coe_finset, hcard, if_pos (decide_eq_true rfl), Nat.add_mul, Nat.one_mul]
      omega
    · rw [if_neg hcc, if_neg hcc] at hdc
      rw [if_neg hcc, if_neg (by simpa using fun he : c = c' => hcc he.symm), Nat.add_zero]
      omega

def Booked (fixed : Finset DyadicBlock) (demand : ℕ → ℕ) (s : Sys) : Prop :=
  ∃ carved F p, Inv fixed carved F s p ∧ Ledger demand carved F s.live

/-- The call carves a page for class `c`: the list of the class is empty and some page is free. -/
def CarvesPage (c : ℕ) (s : Sys) : Op → Prop
  | .alloc size => 0 < size ∧ size ≤ maxChunkSize ∧ cacheOf size = c ∧ s.heap.freeList c = 0 ∧
      ∃ i, FreePage s.heap.mm i
  | .free _ _ => False
  | .write _ _ => False

theorem Inv.candidate_iff (h : Inv fixed carved F s p) :
    (∃ i, FreePage s.heap.mm i) ↔ ∃ i, candidate s.heap.mm pageSize = some i := by
  have hmax : pageSize ≤ maxAllocSize := by decide
  have hzero : reqOrder pageSize = 0 := by decide
  have hiff := candidate_none_iff h.tracks.rep pageSize_pos hmax
  rw [← Option.ne_none_iff_exists', ne_eq, hiff, hzero, not_forall]
  constructor
  · rintro ⟨i, hi⟩
    obtain ⟨B, hB, -⟩ := p.mem_freePages.1 ((freePage_iff h.tracks.rep i).1 hi)
    exact ⟨B, fun hall => absurd (hall hB) (Nat.not_lt_zero _)⟩
  · rintro ⟨B, hB⟩
    have hBf := (Classical.not_imp.1 hB).1
    exact ⟨B.start, (freePage_iff h.tracks.rep _).2 (p.mem_freePages.2 ⟨B, hBf, B.start_mem_pages⟩)⟩

theorem inClass_small {ptr : ℕ} (hs : size ≤ maxChunkSize) (c : ℕ) :
    InClass c (ptr, size) = true ↔ c = cacheOf size :=
  inClass_iff.trans ⟨fun h => h.2.symm, fun h => ⟨hs, h.symm⟩⟩

theorem Booked.pop (h : Inv fixed carved F ⟨st, live⟩ p) (hl : Ledger demand carved F live)
    (hs : size ≤ maxChunkSize) (hne : st.freeList (cacheOf size) ≠ 0) :
    Booked fixed demand ⟨kmemFreelistPop st (cacheOf size),
      (st.freeList (cacheOf size) + headerSize, size) :: live⟩ := by
  have hmem : F (cacheOf size) (st.freeList (cacheOf size)) :=
    ListsHold.head_mem h.lists (cacheOf_spec hs).2.1 (toPtr_of_ne hne)
  exact ⟨_, _, _, h.pop hs hne, hl.pop hmem (fun c' hF => h.lists.once _ _ _ hF hmem)
    (inClass_small hs)⟩

/-- The chunks of a fresh page are on no list. -/
theorem Inv.new_free (h : Inv fixed carved F ⟨st, live⟩ p) (hi : candidate st.mm pageSize = some i)
    {n : ℕ} (hn : n ≤ chunksOfPage c) (c' : ℕ) (j : ℕ) (hj : j < n) :
    ¬ F c' (i * pageSize + j * slot c) := fun hin =>
  h.new_chunk hi ((Nat.mul_le_mul_right _ hn).trans (Nat.div_mul_le_self pageSize _)) c' hj
    (h.freeChunk c' _ hin).2

/-- The numbers of pages carved on demand before and after a call. -/
def Notes (s : Sys) (op : Op) (demand demand' : ℕ → ℕ) : Prop :=
  ∀ c, (CarvesPage c s op → demand' c = demand c + 1) ∧ (¬ CarvesPage c s op → demand' c = demand c)

theorem Notes.same {op : Op} (h : ∀ c, ¬ CarvesPage c s op) : Notes s op demand demand :=
  fun c => ⟨fun hc => absurd hc (h c), fun _ => rfl⟩

theorem Booked.alloc (h : Inv fixed carved F ⟨st, live⟩ p) (hl : Ledger demand carved F live)
    (size : ℕ) : ∃ demand', Notes ⟨st, live⟩ (.alloc size) demand demand' ∧
      Booked fixed demand' (Sys.step L ⟨st, live⟩ (.alloc size)) := by
  rcases heq : Alloc.alloc st size with ⟨st', ptr⟩
  rw [step_alloc L st live size heq]
  have hcase := heq ▸ h.alloc_cases size
  cases hcase with
  | null hno =>
      refine ⟨demand, Notes.same ?_, carved, F, p, h, hl⟩
      rintro c ⟨hpos, hs, -, -, hfree⟩
      obtain ⟨i, hi⟩ := h.candidate_iff.1 hfree
      exact Option.some_ne_none i (hi.symm.trans (hno hpos hs))
  | large hlt hi hne =>
      obtain ⟨p', h'⟩ := h.allocLarge hi hlt
      rw [if_neg (Nat.mul_ne_zero hne pageSize_pos.ne')]
      refine ⟨demand, Notes.same ?_, carved, F, p', h', hl.large hlt⟩
      rintro c ⟨-, hs, -⟩
      exact absurd hs (not_le.2 hlt)
  | small hpos hs hne =>
      rw [if_neg (by simp [headerSize])]
      refine ⟨demand, Notes.same ?_, Booked.pop h hl hs hne⟩
      rintro c ⟨-, -, rfl, hempty, -⟩
      exact hne hempty
  | carve hpos hs hempty hi hst hne =>
      have hc := (cacheOf_spec hs).2.1
      obtain ⟨p', h'⟩ := h.carve_page hc hi
      have hone := chunks_of_page hc
      have hd : ∀ c', (demand c' + if c' = cacheOf size then 1 else 0) +
          (if c' = cacheOf size then pageSize / slot (cacheOf size) - 1 else 0) =
            demand c' + if c' = cacheOf size then chunksOfPage (cacheOf size) else 0 := by
        intro c'
        rw [chunksOfPage]
        split_ifs <;> omega
      have hl' := hl.carve (h.new_free hi (Nat.sub_le _ _)) hd
      rw [if_neg (by simp [headerSize])]
      subst hst
      refine ⟨_, fun c => ⟨?_, ?_⟩, Booked.pop h' hl' hs hne⟩
      · rintro ⟨-, -, rfl, -⟩
        rw [if_pos rfl]
      · intro hnot
        rw [if_neg, Nat.add_zero]
        rintro rfl
        exact hnot ⟨hpos, hs, rfl, hempty, h.candidate_iff.2 ⟨_, hi⟩⟩

theorem Booked.step (hker : rangePages 0x80000 L.stackTop ⊆ fixed.biUnion DyadicBlock.pages)
    (h : Booked fixed demand s) {op : Op} (hv : op.Valid s) :
    ∃ demand', Notes s op demand demand' ∧ Booked fixed demand' (s.step L op) := by
  obtain ⟨carved, F, p, hinv, hl⟩ := h
  cases op with
  | alloc size => exact Booked.alloc hinv hl size
  | free ptr size =>
      refine ⟨demand, Notes.same fun _ => id, ?_⟩
      rcases hinv.free_cases hker hv with ⟨hs, heq⟩ | ⟨hlt, heq⟩
      · rw [Sys.step, heq]
        exact ⟨_, _, _, hinv.push hv hs, hl.push (hinv.liveChunk _ hv hs).2.2 hv (inClass_small hs)⟩
      · obtain ⟨p', h'⟩ := hinv.freeLarge hv hlt
        rw [Sys.step, heq]
        exact ⟨carved, F, p', h', hl.eraseLarge hv hlt⟩
  | write addr value =>
      obtain ⟨h8, a, ha, i, hi, hlo, hhi⟩ := hv
      exact ⟨demand, Notes.same fun _ => id, _, _, _, hinv.write h8 ha hi hlo hhi, hl⟩

theorem kmemCacheInitLoop_booked (n i : ℕ) (hn : i + n = cacheNum)
    (h : Inv fixed carved F ⟨st, []⟩ p) (hl : Ledger demand carved F [])
    (hempty : ∀ c, i ≤ c → c < cacheNum → st.freeList c = 0) :
    Booked fixed demand ⟨kmemCacheInitLoop n i st, []⟩ := by
  induction n generalizing i st carved F p with
  | zero => exact ⟨carved, F, p, h, hl⟩
  | succ n ih =>
      have hi : i < cacheNum := by omega
      rcases h.initLoop_cases hi (hempty i le_rfl hi) n with heq | ⟨b, hcand, heq⟩
      · rw [heq]
        exact ⟨carved, F, p, h, hl⟩
      · have hle := Nat.div_mul_le_self pageSize (slot i)
        obtain ⟨p', h'⟩ := h.carve hi hcand hle
        have hl' : Ledger demand ((b * pageSize, i) :: carved) _ [] :=
          hl.carve (h.new_free hcand (le_refl (chunksOfPage i))) fun _ => rfl
        rw [heq]
        refine ih (i + 1) (by omega) h' hl' fun c hc hlt => ?_
        rw [carvePage_freeList (by omega)]
        exact hempty c (by omega) hlt

theorem boot_booked (L : Layout) (mem : ℕ → ℕ) (kmemCaches : ℕ → KmemCache) :
    ∃ fixed, rangePages 0x80000 L.stackTop ⊆ fixed.biUnion DyadicBlock.pages ∧
      Booked fixed (fun _ => 0) ⟨boot L mem kmemCaches, []⟩ := by
  obtain ⟨fixed, p, st, hker, heq, hinv, hempty⟩ := boot_inv L mem kmemCaches
  refine ⟨fixed, hker, ?_⟩
  rw [heq]
  exact kmemCacheInitLoop_booked cacheNum 0 (Nat.zero_add _) hinv Ledger.nil fun c _ hc => hempty c hc

def carvedPages (st : State) (c : ℕ) : ℕ :=
  ((Finset.range pageNum).filter fun i => (st.mm.pageList i).cacheOrder = (c + 4 : ℕ)).card

/-- The list of class `c` is well linked, its chunks are all different, on no other list and with no
client, and with the chunks of the clients they make up all the chunks of the carved pages. -/
structure Balanced (c : ℕ) (s : Sys) (l : List ℕ) : Prop where
  linked : DChain s.heap.next s.heap.prev none (s.heap.head c) l
  nodup : l.Nodup
  other : ∀ e ∈ l, ∀ c', OnChunkList s.heap c' e → c' = c
  client : ∀ e ∈ l, ∀ a ∈ s.live, a.2 ≤ maxChunkSize → a.1 - headerSize ≠ e
  count : l.length + s.live.countP (InClass c) = carvedPages s.heap c * chunkNum s.heap c

theorem Inv.carvedPages_eq (h : Inv fixed carved F s p) (c : ℕ) :
    carvedPages s.heap c = carved.countP fun x => x.2 = c := by
  have hset : (Finset.range pageNum).filter
      (fun i => (s.heap.mm.pageList i).cacheOrder = (c + 4 : ℕ)) =
        ((carved.filter fun x => x.2 = c).map fun x => x.1 / pageSize).toFinset := by
    ext i
    simp only [Finset.mem_filter, Finset.mem_range, List.mem_toFinset, List.mem_map, List.mem_filter,
      decide_eq_true_eq]
    constructor
    · rintro ⟨hi, horder⟩
      by_contra hnone
      by_cases hx : ∃ x ∈ carved, x.1 / pageSize = i
      · obtain ⟨x, hx, rfl⟩ := hx
        have hxo := (h.carvedOrder x hx).2
        rw [horder] at hxo
        exact hnone ⟨x, ⟨hx, by omega⟩, rfl⟩
      · have hplain := h.plainOrder i hi fun x hxc heq => hx ⟨x, hxc, heq⟩
        rw [horder] at hplain
        omega
    · rintro ⟨x, ⟨hx, rfl⟩, rfl⟩
      exact ⟨(h.carved_page hx).2.2, (h.carvedOrder x hx).2⟩
  have hnd := h.tracks.nodup
  rw [pageLive, List.map_append, List.map_map] at hnd
  have hnodup : carved.Nodup := (List.nodup_append.1 hnd).2.1.of_map
  have hmap : ((carved.filter fun x => x.2 = c).map fun x => x.1 / pageSize).Nodup :=
    (hnodup.filter _).map_on fun x hx y hy heq =>
      h.carved_inj (List.mem_of_mem_filter hx) (List.mem_of_mem_filter hy) heq
  rw [carvedPages, hset, List.toFinset_card_of_nodup hmap, List.length_map,
    List.countP_eq_length_filter]

theorem Inv.chunkNum_eq (h : Inv fixed carved F s p) (hc : c < cacheNum) :
    chunkNum s.heap c = chunksOfPage c := by
  rw [chunkNum, h.cacheSize c hc, chunksOfPage, slot]

/-- The books balance for a class exactly when no page was carved for it on demand. -/
theorem Booked.balanced_iff (h : Booked fixed demand s) (hc : c < cacheNum) :
    (∃ l, Balanced c s l) ↔ demand c = 0 := by
  obtain ⟨carved, F, p, hinv, hl⟩ := h
  have hcount := hl.count c
  rw [← hinv.carvedPages_eq, ← hinv.chunkNum_eq hc] at hcount
  have hlength : ∀ l, DChain s.heap.next s.heap.prev none (s.heap.head c) l →
      (∀ i, i ∈ l ↔ F c i) → l.length = {e | F c e}.ncard := by
    intro l hd hm
    have hset : {e | F c e} = (l.toFinset : Set ℕ) := by
      ext i
      rw [Finset.mem_coe, List.mem_toFinset]
      exact (hm i).symm
    rw [hset, Set.ncard_coe_finset, List.toFinset_card_of_nodup hd.chain.nodup]
  obtain ⟨l, hd, hm⟩ := hinv.lists.linked c hc
  have hlen := hlength l hd hm
  constructor
  · rintro ⟨l', hb⟩
    have hll := hd.chain.unique hb.linked.chain
    have := hb.count
    rw [← hll, hlen] at this
    omega
  · intro h0
    refine ⟨l, hd, hd.chain.nodup, fun e he c' hon => ?_, fun e he a ha hs heq => ?_, by omega⟩
    · exact hinv.lists.once _ _ _ (hinv.onChunkList hon) ((hm e).1 he)
    · exact (hinv.liveChunk a ha hs).2.2 c (heq ▸ (hm e).1 he)

def Sys.run (L : Layout) (s : Sys) (l : List Op) : Sys := l.foldl (Sys.step L) s

def ValidRun (L : Layout) (s : Sys) (l : List Op) : Prop :=
  ∀ l₁ op l₂, l = l₁ ++ op :: l₂ → op.Valid (s.run L l₁)

def NoDemand (L : Layout) (s : Sys) (c : ℕ) (l : List Op) : Prop :=
  ∀ l₁ op l₂, l = l₁ ++ op :: l₂ → ¬ CarvesPage c (s.run L l₁) op

theorem run_concat (L : Layout) (s : Sys) (l : List Op) (op : Op) :
    s.run L (l ++ [op]) = (s.run L l).step L op := by
  rw [Sys.run, List.foldl_append]
  rfl

theorem Booked.run (hker : rangePages 0x80000 L.stackTop ⊆ fixed.biUnion DyadicBlock.pages)
    (h : Booked fixed (fun _ => 0) s) (l : List Op) (hv : ValidRun L s l) :
    ∃ demand, Booked fixed demand (s.run L l) ∧ ∀ c, demand c = 0 ↔ NoDemand L s c l := by
  induction l using List.reverseRecOn with
  | nil => exact ⟨_, h, fun c => ⟨fun _ l₁ op l₂ hl => absurd hl.symm (by simp), fun _ => rfl⟩⟩
  | append_singleton l op ih =>
      obtain ⟨hv', hop⟩ := (Runs.forall_split_concat l op).1 hv
      obtain ⟨demand, hb, hd⟩ := ih hv'
      obtain ⟨demand', hnote, hb'⟩ := hb.step hker hop
      rw [run_concat]
      refine ⟨demand', hb', fun c => ?_⟩
      rw [NoDemand, Runs.forall_split_concat (P := fun l₁ op => ¬ CarvesPage c (s.run L l₁) op)]
      change _ ↔ NoDemand L s c l ∧ _
      rw [← hd]
      by_cases hcarve : CarvesPage c (s.run L l) op
      · rw [(hnote c).1 hcarve]
        exact ⟨fun h0 => absurd h0 (Nat.succ_ne_zero _), fun h0 => absurd hcarve h0.2⟩
      · rw [(hnote c).2 hcarve]
        exact ⟨fun h0 => ⟨h0, hcarve⟩, And.left⟩

/-- The chunks of a class are conserved along a run exactly if no call of it carves a page for the
class. -/
theorem slab_conserved_iff {L : Layout} {mem : ℕ → ℕ} {kmemCaches : ℕ → KmemCache} {l : List Op}
    {c : ℕ} (hc : c < cacheNum) (hv : ValidRun L ⟨boot L mem kmemCaches, []⟩ l) :
    (∃ chunks, Balanced c (Sys.run L ⟨boot L mem kmemCaches, []⟩ l) chunks) ↔
      NoDemand L ⟨boot L mem kmemCaches, []⟩ c l := by
  obtain ⟨fixed, hker, h⟩ := boot_booked L mem kmemCaches
  obtain ⟨demand, hb, hd⟩ := h.run hker l hv
  rw [hb.balanced_iff hc, hd]

def smallImage : Layout := ⟨0x1000000, by decide, by decide⟩

def smallBoot : Sys := ⟨boot smallImage (fun _ => 0) (fun _ => ⟨0, 0⟩), []⟩

theorem validRun_replicate (L : Layout) (s : Sys) (n size : ℕ) :
    ValidRun L s (List.replicate n (.alloc size)) := by
  intro l₁ op l₂ hl
  have hmem : op ∈ List.replicate n (Op.alloc size) :=
    hl ▸ List.mem_append_right _ List.mem_cons_self
  rw [List.eq_of_mem_replicate hmem]
  trivial

/-- A page of 28 chunks is filled, one block is freed, and the next request gets its chunk. -/
def refill : List Op := List.replicate 28 (.alloc 128) ++ [.free 16400 128] ++ [.alloc 128]

theorem validRun_refill : ValidRun smallImage smallBoot refill := by
  have hlive : (16400, 128) ∈ (smallBoot.run smallImage (List.replicate 28 (.alloc 128))).live := by
    decide +kernel
  have hfill := validRun_replicate smallImage smallBoot 28 128
  exact (Runs.forall_split_concat _ _).2 ⟨(Runs.forall_split_concat _ _).2 ⟨hfill, hlive⟩, trivial⟩

/-- While the page lasts, the list of the class is not empty. -/
theorem noDemand_fill : NoDemand smallImage smallBoot 3 (List.replicate 28 (.alloc 128)) := by
  intro l₁ op l₂ hl hcarve
  have hlen := congrArg List.length hl
  simp only [List.length_replicate, List.length_append, List.length_cons] at hlen
  have hop : ∀ o ∈ l₁ ++ op :: l₂, o = Op.alloc 128 := fun o ho => List.eq_of_mem_replicate (hl ▸ ho)
  have hfirst : l₁ = List.replicate l₁.length (.alloc 128) :=
    List.eq_replicate_of_mem fun o ho => hop o (List.mem_append_left _ ho)
  have hlist : ∀ i < 28, (smallBoot.run smallImage (List.replicate i (.alloc 128))).heap.freeList 3 ≠ 0 := by
    decide +kernel
  rw [hfirst, hop op (List.mem_append_right _ List.mem_cons_self)] at hcarve
  exact hlist l₁.length (by omega) hcarve.2.2.2.1

theorem noDemand_refill : NoDemand smallImage smallBoot 3 refill := by
  have hfree : (smallBoot.run smallImage
      (List.replicate 28 (.alloc 128) ++ [.free 16400 128])).heap.freeList 3 ≠ 0 := by decide +kernel
  refine (Runs.forall_split_concat (P := fun l₁ op => ¬ CarvesPage 3 (smallBoot.run smallImage l₁) op)
    _ _).2 ⟨?_, fun hcarve => hfree hcarve.2.2.2.1⟩
  exact (Runs.forall_split_concat (P := fun l₁ op => ¬ CarvesPage 3 (smallBoot.run smallImage l₁) op)
    _ _).2 ⟨noDemand_fill, id⟩

theorem slab_conserved_iff_refill : (smallBoot.run smallImage refill).live.length = 28 ∧
    ∃ chunks, Balanced 3 (smallBoot.run smallImage refill) chunks :=
  ⟨by decide +kernel, (slab_conserved_iff (by decide) validRun_refill).2 noDemand_refill⟩

/-- The 29th block of 128 bytes comes from a second page, which brings 27 chunks and not 28. -/
theorem chunk_lost : ¬ ∀ (L : Layout) (mem : ℕ → ℕ) (kmemCaches : ℕ → KmemCache) (l : List Op),
    ValidRun L ⟨boot L mem kmemCaches, []⟩ l → ∀ c < cacheNum,
      ∃ chunks, Balanced c (Sys.run L ⟨boot L mem kmemCaches, []⟩ l) chunks := by
  intro hall
  have hvalid := validRun_replicate smallImage smallBoot
  have hthree : 3 < cacheNum := by decide
  have hbal : ∃ chunks, Balanced 3 (smallBoot.run smallImage (List.replicate 29 (.alloc 128))) chunks :=
    hall _ _ _ _ (hvalid 29 128) 3 hthree
  obtain ⟨fixed, hker, h⟩ : ∃ fixed, rangePages 0x80000 smallImage.stackTop ⊆
      fixed.biUnion DyadicBlock.pages ∧ Booked fixed (fun _ => 0) smallBoot :=
    boot_booked smallImage (fun _ => 0) fun _ => ⟨0, 0⟩
  obtain ⟨demand, hb, hd⟩ := h.run hker _ (hvalid 29 128)
  have hno := (hd 3).1 ((hb.balanced_iff hthree).1 hbal)
  obtain ⟨demand', ⟨carved, F, p, hinv, -⟩, -⟩ := h.run hker _ (hvalid 28 128)
  have hempty : (smallBoot.run smallImage (List.replicate 28 (.alloc 128))).heap.freeList 3 = 0 := by
    decide +kernel
  have hpage : candidate (smallBoot.run smallImage (List.replicate 28 (.alloc 128))).heap.mm pageSize =
      some 5 := by decide +kernel
  have hclass : cacheOf 128 = 3 := by decide
  have hfree := hinv.candidate_iff.2 ⟨_, hpage⟩
  have hsmall : 128 ≤ maxChunkSize := by decide
  refine hno (List.replicate 28 (.alloc 128)) (.alloc 128) [] rfl ?_
  exact ⟨Nat.succ_pos 127, hsmall, hclass, hempty, hfree⟩

end OscKernel.Alloc
