import OscKernel.LinkedList
import OscKernel.PageAllocator

/-!
# The free lists in memory

What the two list operations of `mm.c` do to each field, and from it what they do to the lists.
`ListsHold st F` says that the free list of every order `k` is a well-linked list of exactly the
pages `i` with `F k i`.
-/

namespace OscKernel.Mm

open Linked

def State.next (st : State) (i : ℕ) : Option ℕ := (st.pageList i).next
def State.prev (st : State) (i : ℕ) : Option ℕ := (st.pageList i).prev

@[simp] theorem setHead_freeList (st : State) (k : ℕ) (h : Option ℕ) (j : ℕ) :
    (st.setHead k h).freeList j = if j = k then h else st.freeList j := by
  simp only [State.setHead, Function.update_apply]

@[simp] theorem setHead_pageList (st : State) (k : ℕ) (h : Option ℕ) :
    (st.setHead k h).pageList = st.pageList := rfl

@[simp] theorem modify_freeList (st : State) (i : ℕ) (f : PageInfo → PageInfo) :
    (st.modify i f).freeList = st.freeList := rfl

@[simp] theorem modify_pageList (st : State) (i : ℕ) (f : PageInfo → PageInfo) (j : ℕ) :
    (st.modify i f).pageList j = if j = i then f (st.pageList j) else st.pageList j := by
  simp only [State.modify, Function.update_apply]
  split_ifs with h
  · rw [h]
  · rfl

@[simp] theorem modifyPtr_freeList (st : State) (i : Option ℕ) (f : PageInfo → PageInfo) :
    (st.modifyPtr i f).freeList = st.freeList := by cases i <;> rfl

@[simp] theorem modifyPtr_pageList (st : State) (i : Option ℕ) (f : PageInfo → PageInfo) (j : ℕ) :
    (st.modifyPtr i f).pageList j = if i = some j then f (st.pageList j) else st.pageList j := by
  cases i with
  | none => rfl
  | some i => simp [State.modifyPtr, eq_comm]

structure SameData (e e' : PageInfo) : Prop where
  idx : e'.idx = e.idx
  order : e'.order = e.order
  cacheOrder : e'.cacheOrder = e.cacheOrder
  entryInList : e'.entryInList = e.entryInList

section Operations

variable (st : State) (b : ℕ) {k : ℕ} (hk : k < maxOrder)
include hk

theorem order_in_range : ¬ ((k : ℤ) < 0 ∨ (maxOrder : ℤ) ≤ (k : ℤ)) := by omega

theorem addToFreeList_freeList (j : ℕ) :
    (addToFreeList st b k).freeList j = if j = k then some b else st.freeList j := by
  rw [addToFreeList, if_neg (order_in_range hk)]
  cases hh : st.freeList k <;> simp [hh]

theorem addToFreeList_sameData (i : ℕ) :
    SameData (st.pageList i) ((addToFreeList st b k).pageList i) := by
  rw [addToFreeList, if_neg (order_in_range hk)]
  cases hh : st.freeList k with
  | none =>
      simp only [Int.toNat_natCast, hh, modify_pageList, setHead_pageList]
      split_ifs <;> exact ⟨rfl, rfl, rfl, rfl⟩
  | some head =>
      simp only [Int.toNat_natCast, hh, modify_pageList, setHead_pageList]
      split_ifs <;> exact ⟨rfl, rfl, rfl, rfl⟩

theorem addToFreeList_next (i : ℕ) :
    (addToFreeList st b k).next i = if i = b then st.freeList k else st.next i := by
  rw [addToFreeList, if_neg (order_in_range hk)]
  cases hh : st.freeList k with
  | none =>
      simp only [Int.toNat_natCast, hh, State.next, modify_pageList, setHead_pageList]
      split_ifs <;> rfl
  | some head =>
      simp only [Int.toNat_natCast, hh, State.next, modify_pageList, setHead_pageList]
      split_ifs <;> rfl

theorem addToFreeList_prev (i : ℕ) : (addToFreeList st b k).prev i =
    if i = b then none else if st.freeList k = some i then some b else st.prev i := by
  rw [addToFreeList, if_neg (order_in_range hk)]
  cases hh : st.freeList k with
  | none =>
      simp only [Int.toNat_natCast, hh, State.prev, modify_pageList, setHead_pageList]
      split_ifs <;> first | rfl | contradiction
  | some head =>
      simp only [Int.toNat_natCast, hh, State.prev, modify_pageList, setHead_pageList,
        Option.some.injEq, eq_comm (a := head)]
      split_ifs <;> rfl

theorem rmFromFreeList_head (hh : st.freeList k = some b) : rmFromFreeList st b k =
    ((st.setHead k (st.next b)).modifyPtr (st.next b) fun e => { e with prev := none }).modify b
      fun e => { e with next := none, prev := none } := by
  rw [rmFromFreeList, if_neg (order_in_range hk)]
  simp only [Int.toNat_natCast, if_pos hh, State.next]

theorem rmFromFreeList_inner (hh : st.freeList k ≠ some b) : rmFromFreeList st b k =
    ((st.modifyPtr (st.prev b) fun e => { e with next := st.next b }).modifyPtr (st.next b)
      fun e => { e with prev := st.prev b }).modify b
      fun e => { e with next := none, prev := none } := by
  rw [rmFromFreeList, if_neg (order_in_range hk)]
  simp only [Int.toNat_natCast, if_neg hh, State.next, State.prev]

theorem rmFromFreeList_freeList (j : ℕ) : (rmFromFreeList st b k).freeList j =
    if j = k then (if st.freeList k = some b then st.next b else st.freeList k)
    else st.freeList j := by
  by_cases hh : st.freeList k = some b
  · rw [rmFromFreeList_head st b hk hh, if_pos hh]
    simp only [modify_freeList, modifyPtr_freeList, setHead_freeList]
  · rw [rmFromFreeList_inner st b hk hh, if_neg hh]
    simp only [modify_freeList, modifyPtr_freeList]
    split_ifs with hj
    · rw [hj]
    · rfl

theorem rmFromFreeList_sameData (i : ℕ) :
    SameData (st.pageList i) ((rmFromFreeList st b k).pageList i) := by
  by_cases hh : st.freeList k = some b
  · rw [rmFromFreeList_head st b hk hh]
    simp only [modify_pageList, modifyPtr_pageList, setHead_pageList]
    split_ifs <;> exact ⟨rfl, rfl, rfl, rfl⟩
  · rw [rmFromFreeList_inner st b hk hh]
    simp only [modify_pageList, modifyPtr_pageList]
    split_ifs <;> exact ⟨rfl, rfl, rfl, rfl⟩

theorem rmFromFreeList_next {i : ℕ} (hi : i ≠ b) : (rmFromFreeList st b k).next i =
    if st.freeList k ≠ some b ∧ st.prev b = some i then st.next b else st.next i := by
  by_cases hh : st.freeList k = some b
  · rw [rmFromFreeList_head st b hk hh, if_neg (fun h => h.1 hh)]
    simp only [State.next, modify_pageList, if_neg hi, modifyPtr_pageList, setHead_pageList]
    split_ifs <;> rfl
  · rw [rmFromFreeList_inner st b hk hh]
    simp only [State.next, modify_pageList, if_neg hi, modifyPtr_pageList, ne_eq, hh,
      not_false_eq_true, true_and]
    split_ifs <;> rfl

theorem rmFromFreeList_prev {i : ℕ} (hi : i ≠ b) : (rmFromFreeList st b k).prev i =
    if st.next b = some i then (if st.freeList k = some b then none else st.prev b)
    else st.prev i := by
  by_cases hh : st.freeList k = some b
  · rw [rmFromFreeList_head st b hk hh, if_pos hh]
    simp only [State.prev, modify_pageList, if_neg hi, modifyPtr_pageList, setHead_pageList]
    split_ifs <;> rfl
  · rw [rmFromFreeList_inner st b hk hh, if_neg hh]
    simp only [State.prev, modify_pageList, if_neg hi, modifyPtr_pageList]
    split_ifs <;> rfl

end Operations

/-- Every free list is well linked and holds exactly the pages that `F` puts there, and no page is
put on two lists. -/
abbrev ListsHold (st : State) (F : ℕ → ℕ → Prop) : Prop :=
  Lists maxOrder st.next st.prev st.freeList F

theorem ListsHold.add {st : State} {F F' : ℕ → ℕ → Prop} (h : ListsHold st F) {k b : ℕ}
    (hk : k < maxOrder) (hfresh : ∀ j, ¬ F j b)
    (hF' : ∀ j i, F' j i ↔ F j i ∨ (j = k ∧ i = b)) : ListsHold (addToFreeList st b k) F' := by
  have hne : ∀ j i, F j i → i ≠ b := fun j i hi he => hfresh j (he ▸ hi)
  refine h.push hk hfresh (addToFreeList_freeList st b hk) ?_ ?_ ?_ ?_ hF'
  · rw [addToFreeList_next st b hk, if_pos rfl]
  · rw [addToFreeList_prev st b hk, if_pos rfl]
  · intro j i hi
    rw [addToFreeList_next st b hk, if_neg (hne j i hi)]
  · intro j i hi
    rw [addToFreeList_prev st b hk, if_neg (hne j i hi)]

theorem ListsHold.rm {st : State} {F F' : ℕ → ℕ → Prop} (h : ListsHold st F) {k b : ℕ}
    (hk : k < maxOrder) (hb : F k b) (hF' : ∀ j i, F' j i ↔ F j i ∧ i ≠ b) :
    ListsHold (rmFromFreeList st b k) F' :=
  h.unlink hk hb (rmFromFreeList_freeList st b hk)
    (fun _ _ _ hib => rmFromFreeList_next st b hk hib)
    (fun _ _ _ hib => rmFromFreeList_prev st b hk hib) hF'

end OscKernel.Mm
