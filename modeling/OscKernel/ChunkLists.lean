import OscKernel.ChunkAllocator
import OscKernel.LinkedList

/-!
# The chunk lists in memory

The entries of the chunk lists lie at multiples of 16, so the two words of one entry never meet the
words of another. On such entries the push and the pop of `alloc.c` act on the lists as expected.
-/

namespace OscKernel.Alloc

open Linked

def toPtr (a : ℕ) : Option ℕ := if a = 0 then none else some a

theorem toPtr_eq_some {a b : ℕ} : toPtr a = some b ↔ a = b ∧ b ≠ 0 := by
  unfold toPtr
  split_ifs with h
  · simp only [false_iff, not_and, not_not]
    exact fun hab => hab ▸ h
  · rw [Option.some.injEq]
    exact ⟨fun hab => ⟨hab, hab ▸ h⟩, And.left⟩

theorem toPtr_of_ne {a : ℕ} (h : a ≠ 0) : toPtr a = some a := if_neg h

@[simp] theorem toPtr_zero : toPtr 0 = none := rfl

def State.prev (st : State) (e : ℕ) : Option ℕ := toPtr (st.mem e)
def State.next (st : State) (e : ℕ) : Option ℕ := toPtr (st.mem (e + 8))
def State.head (st : State) (c : ℕ) : Option ℕ := toPtr (st.freeList c)

/-- The chunk lists are well linked and hold exactly the entries that `F` puts there. -/
abbrev ListsHold (st : State) (F : ℕ → ℕ → Prop) : Prop :=
  Lists cacheNum st.next st.prev st.head F

/-- All entries are addresses of 16-byte units. -/
def Aligned (F : ℕ → ℕ → Prop) : Prop := ∀ c e, F c e → 16 ∣ e ∧ e ≠ 0

section Fields

variable (st : State) (a v c e : ℕ)

@[simp] theorem store_mem : (st.store a v).mem = Function.update st.mem a v := rfl
@[simp] theorem store_mm : (st.store a v).mm = st.mm := rfl
@[simp] theorem store_kmemCaches : (st.store a v).kmemCaches = st.kmemCaches := rfl
@[simp] theorem store_freeList : (st.store a v).freeList c = st.freeList c := rfl
@[simp] theorem setFreeList_mem : (st.setFreeList c e).mem = st.mem := rfl
@[simp] theorem setFreeList_mm : (st.setFreeList c e).mm = st.mm := rfl

@[simp] theorem setFreeList_freeList (c' : ℕ) :
    (st.setFreeList c e).freeList c' = if c' = c then e else st.freeList c' := by
  simp only [State.freeList, State.setFreeList, Function.update_apply]
  split_ifs <;> rfl

@[simp] theorem setFreeList_cacheSize (c' : ℕ) :
    ((st.setFreeList c e).kmemCaches c').cacheSize = (st.kmemCaches c').cacheSize := by
  simp only [State.setFreeList, Function.update_apply]
  split_ifs with h
  · rw [h]
  · rfl

end Fields

section Operations

variable (st : State) (e c : ℕ)

theorem push_mm : (kmemFreelistPush st e c).mm = st.mm := by
  simp only [kmemFreelistPush]
  split_ifs <;> rfl

theorem push_cacheSize (c' : ℕ) :
    ((kmemFreelistPush st e c).kmemCaches c').cacheSize = (st.kmemCaches c').cacheSize := by
  simp only [kmemFreelistPush]
  split_ifs <;> simp

theorem push_freeList (c' : ℕ) :
    (kmemFreelistPush st e c).freeList c' = if c' = c then e else st.freeList c' := by
  simp only [kmemFreelistPush]
  split_ifs <;> simp_all

theorem push_mem (a : ℕ) : (kmemFreelistPush st e c).mem a =
    if a = e then 0 else if toPtr (st.freeList c) = some a then e
    else if a = e + 8 then st.freeList c else st.mem a := by
  simp only [kmemFreelistPush, toPtr_eq_some, store_freeList]
  by_cases hh : st.freeList c = 0
  · simp only [hh, ne_eq, not_true_eq_false, if_false, store_mem, setFreeList_mem,
      Function.update_apply]
    have hnone : ¬ (0 = a ∧ a ≠ 0) := fun h => h.2 h.1.symm
    rw [if_neg hnone]
  · simp only [hh, ne_eq, not_false_eq_true, if_true, store_mem, setFreeList_mem,
      Function.update_apply]
    have hiff : (st.freeList c = a ∧ ¬ a = 0) ↔ a = st.freeList c :=
      ⟨fun h => h.1.symm, fun h => ⟨h.symm, h ▸ hh⟩⟩
    simp only [hiff]

theorem pop_mm : (kmemFreelistPop st c).mm = st.mm := by
  simp only [kmemFreelistPop]
  split_ifs <;> rfl

theorem pop_cacheSize (c' : ℕ) :
    ((kmemFreelistPop st c).kmemCaches c').cacheSize = (st.kmemCaches c').cacheSize := by
  simp only [kmemFreelistPop]
  split_ifs <;> simp

theorem pop_freeList (c' : ℕ) : (kmemFreelistPop st c).freeList c' =
    if c' = c then st.mem (st.freeList c + 8) else st.freeList c' := by
  simp only [kmemFreelistPop]
  split_ifs <;> simp_all

theorem pop_mem (a : ℕ) : (kmemFreelistPop st c).mem a =
    if a = st.freeList c ∨ a = st.freeList c + 8 ∨ st.next (st.freeList c) = some a then 0
    else st.mem a := by
  simp only [kmemFreelistPop, State.next, toPtr_eq_some, setFreeList_freeList, if_true]
  by_cases hh : st.mem (st.freeList c + 8) = 0
  · simp only [hh, ne_eq, not_true_eq_false, if_false, store_mem, setFreeList_mem,
      Function.update_apply]
    split_ifs with h₁ h₂ h₃ h₄ <;> first | rfl | grind
  · simp only [hh, ne_eq, not_false_eq_true, if_true, store_mem, setFreeList_mem,
      Function.update_apply]
    split_ifs <;> first | rfl | grind

end Operations

variable {st : State} {F F' : ℕ → ℕ → Prop} {c e i : ℕ}

theorem Aligned.word (hF : Aligned F) (h16 : 16 ∣ e) (hi : F c i) : i ≠ e + 8 ∧ i + 8 ≠ e := by
  have := (hF c i hi).1
  omega

theorem ListsHold.head_mem (h : ListsHold st F) (hc : c < cacheNum) {a : ℕ}
    (ha : toPtr (st.freeList c) = some a) : F c a :=
  h.of_head hc ha

theorem ListsHold.push (h : ListsHold st F) (hF : Aligned F) (hc : c < cacheNum) (h16 : 16 ∣ e)
    (he : e ≠ 0) (hfresh : ∀ c', ¬ F c' e)
    (hF' : ∀ c' i, F' c' i ↔ F c' i ∨ (c' = c ∧ i = e)) : ListsHold (kmemFreelistPush st e c) F' := by
  have hne : ∀ c' i, F c' i → i ≠ e := fun c' i hi hie => hfresh c' (hie ▸ hi)
  have hhead8 : ∀ i, 16 ∣ i → toPtr (st.freeList c) ≠ some (i + 8) := by
    intro i hi hh
    have := (hF c _ (h.head_mem hc hh)).1
    omega
  refine Lists.push h hc hfresh ?_ ?_ ?_ ?_ ?_ hF'
  · intro j
    rw [State.head, push_freeList]
    split_ifs with hj
    · exact toPtr_of_ne he
    · rfl
  · rw [State.next, push_mem, if_neg (by omega), if_neg (hhead8 e h16), if_pos rfl]
    rfl
  · rw [State.prev, push_mem, if_pos rfl, toPtr_zero]
  · intro j i hi
    have h16i := (hF j i hi).1
    have hie := hne j i hi
    rw [State.next, push_mem, if_neg (by omega), if_neg (hhead8 i h16i), if_neg (by omega)]
    rfl
  · intro j i hi
    have hw := hF.word h16 hi
    rw [State.prev, push_mem, if_neg (hne j i hi), if_neg hw.1]
    change toPtr (if st.head c = some i then e else st.mem i) = _
    split_ifs
    · exact toPtr_of_ne he
    · rfl

theorem ListsHold.pop (h : ListsHold st F) (hF : Aligned F) (hc : c < cacheNum)
    (hne : st.freeList c ≠ 0) (hF' : ∀ c' i, F' c' i ↔ F c' i ∧ i ≠ st.freeList c) :
    ListsHold (kmemFreelistPop st c) F' := by
  have hhead : st.head c = some (st.freeList c) := toPtr_of_ne hne
  have hmem : F c (st.freeList c) := h.head_mem hc hhead
  have h16 := (hF c _ hmem).1
  have hnext : ∀ a, st.next (st.freeList c) = some a → 16 ∣ a := by
    intro a ha
    obtain ⟨l, hd, hl⟩ := h.linked c hc
    exact (hF c a ((hl a).1 (hd.chain.next_mem ((hl _).2 hmem) ha))).1
  refine Lists.unlink h hc hmem ?_ ?_ ?_ hF'
  · intro j
    rw [State.head, pop_freeList]
    by_cases hj : j = c
    · rw [if_pos hj, if_pos hj, if_pos hhead]
      rfl
    · rw [if_neg hj, if_neg hj]
      rfl
  · intro j i hi hib
    have h16i := (hF j i hi).1
    rw [if_neg (fun hcon => hcon.1 hhead), State.next, pop_mem, if_neg]
    · rfl
    · rintro (heq | heq | hn)
      · omega
      · omega
      · have := hnext _ hn
        omega
  · intro j i hi hib
    have hw := hF.word h16 hi
    rw [if_pos hhead, State.prev, pop_mem]
    by_cases hn : st.next (st.freeList c) = some i
    · rw [if_pos (Or.inr (Or.inr hn)), if_pos hn, toPtr_zero]
    · rw [if_neg, if_neg hn]
      · rfl
      · rintro (heq | heq | hn')
        · exact hib heq
        · exact hw.1 heq
        · exact hn hn'

/-- Writes that spare the words of the entries keep the lists. -/
theorem ListsHold.write (h : ListsHold st F) {mem : ℕ → ℕ}
    (hmem : ∀ c e, F c e → mem e = st.mem e ∧ mem (e + 8) = st.mem (e + 8)) :
    ListsHold { st with mem := mem } F := by
  refine Lists.congr h (fun _ _ => rfl) ?_ ?_
  · intro c e he
    simp only [State.next, (hmem c e he).2]
  · intro c e he
    simp only [State.prev, (hmem c e he).1]

theorem pushChunks_mm (step n page : ℕ) : (pushChunks c step n page st).mm = st.mm := by
  induction n generalizing st page with
  | zero => rfl
  | succ n ih => exact (ih _).trans (push_mm st page c)

theorem pushChunks_cacheSize (step n page c' : ℕ) :
    ((pushChunks c step n page st).kmemCaches c').cacheSize = (st.kmemCaches c').cacheSize := by
  induction n generalizing st page with
  | zero => rfl
  | succ n ih => exact (ih _).trans (push_cacheSize st page c c')

theorem pushChunks_freeList (step n page : ℕ) {c' : ℕ} (hc : c' ≠ c) :
    (pushChunks c step n page st).freeList c' = st.freeList c' := by
  induction n generalizing st page with
  | zero => rfl
  | succ n ih =>
      refine (ih _).trans ?_
      rw [push_freeList, if_neg hc]

/-- A carved page adds its chunks to the list. -/
theorem ListsHold.pushChunks (h : ListsHold st F) (hF : Aligned F) (hc : c < cacheNum)
    {step page : ℕ} (hstep : 16 ∣ step) (hpos : 0 < step) (hpage : 16 ∣ page) (hp : page ≠ 0) (n : ℕ)
    (hfresh : ∀ c', ∀ j < n, ¬ F c' (page + j * step)) :
    ListsHold (pushChunks c step n page st)
      fun c' i => F c' i ∨ (c' = c ∧ ∃ j < n, i = page + j * step) := by
  induction n generalizing st F page with
  | zero => exact Lists.iff h (fun k i => by simp)
  | succ n ih =>
      have hfresh0 : ∀ c', ¬ F c' page := fun c' hin => hfresh c' 0 (by omega) (by simpa using hin)
      have hpush := h.push hF hc hpage hp hfresh0 (fun c' i => Iff.rfl)
      have hal : Aligned fun c' i => F c' i ∨ (c' = c ∧ i = page) := by
        rintro c' i (hi | ⟨-, rfl⟩)
        · exact hF c' i hi
        · exact ⟨hpage, hp⟩
      refine Lists.iff (ih hpush hal (show 16 ∣ page + step from (Nat.dvd_add_right hpage).2 hstep)
        (by omega) ?_) ?_
      · rintro c' j hj (hin | ⟨-, heq⟩)
        · apply hfresh c' (j + 1) (by omega)
          rwa [Nat.add_mul, Nat.one_mul, Nat.add_comm (j * step), ← Nat.add_assoc]
        · omega
      · intro k i
        have hsucc : (k = c ∧ ∃ j < n + 1, i = page + j * step) ↔
            (k = c ∧ i = page) ∨ (k = c ∧ ∃ j < n, i = page + step + j * step) := by
          rw [← and_or_left]
          refine and_congr_right fun _ => ?_
          constructor
          · rintro ⟨j, hj, rfl⟩
            cases j with
            | zero => exact Or.inl (by omega)
            | succ j =>
                refine Or.inr ⟨j, by omega, ?_⟩
                rw [Nat.add_mul, Nat.one_mul]
                omega
          · rintro (rfl | ⟨j, hj, rfl⟩)
            · exact ⟨0, by omega, by omega⟩
            · refine ⟨j + 1, by omega, ?_⟩
              rw [Nat.add_mul, Nat.one_mul]
              omega
        rw [hsucc, or_assoc]

end OscKernel.Alloc
