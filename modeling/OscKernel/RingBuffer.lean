import Mathlib.Data.List.Range
import Mathlib.Tactic

/-!
# Ring buffers with two indices

A ring of `n` slots with two wrapping indices. The slots from `tail` up to `head` are in use, and equal
indices mean that there is none, so a ring holds at most `n - 1` items.
-/

structure RingBuffer (α : Type*) where
  slots : ℕ → α
  head : ℕ
  tail : ℕ

namespace RingBuffer

variable {α : Type*} {n : ℕ} {r : RingBuffer α} {i : ℕ}

def next (n i : ℕ) : ℕ := (i + 1) % n

structure Ok (n : ℕ) (r : RingBuffer α) : Prop where
  head : r.head < n
  tail : r.tail < n

def Full (n : ℕ) (r : RingBuffer α) : Prop := next n r.head = r.tail

instance (n : ℕ) (r : RingBuffer α) : Decidable (Full n r) := inferInstanceAs (Decidable (_ = _))

def Empty (r : RingBuffer α) : Prop := r.head = r.tail

instance (r : RingBuffer α) : Decidable (Empty r) := inferInstanceAs (Decidable (_ = _))

def store (r : RingBuffer α) (a : α) : RingBuffer α := { r with slots := Function.update r.slots r.head a }

/-- Take the slot at `head` into use. -/
def advance (n : ℕ) (r : RingBuffer α) : RingBuffer α := { r with head := next n r.head }

def release (n : ℕ) (r : RingBuffer α) : RingBuffer α := { r with tail := next n r.tail }

def count (n : ℕ) (r : RingBuffer α) : ℕ := (r.head + n - r.tail) % n

/-- The items from the oldest to the newest. -/
def contents (n : ℕ) (r : RingBuffer α) : List α :=
  (List.range (r.count n)).map fun i => r.slots ((r.tail + i) % n)

theorem next_lt (hi : i < n) : next n i < n := Nat.mod_lt _ (by omega)

theorem next_eq (hi : i < n) : next n i = if i + 1 = n then 0 else i + 1 := by
  rw [next]
  split_ifs with h
  · rw [h, Nat.mod_self]
  · exact Nat.mod_eq_of_lt (by omega)

theorem count_eq (h : r.Ok n) :
    r.count n = if r.tail ≤ r.head then r.head - r.tail else r.head + n - r.tail := by
  obtain ⟨hhead, htail⟩ := h
  rw [count]
  split_ifs with hle
  · rw [show r.head + n - r.tail = r.head - r.tail + n by omega, Nat.add_mod_right]
    exact Nat.mod_eq_of_lt (by omega)
  · exact Nat.mod_eq_of_lt (by omega)

theorem count_lt (h : r.Ok n) : r.count n < n := Nat.mod_lt _ (by have := h.head; omega)

theorem Ok.advance (h : r.Ok n) : (r.advance n).Ok n := ⟨next_lt h.head, h.tail⟩

theorem Ok.release (h : r.Ok n) : (r.release n).Ok n := ⟨h.head, next_lt h.tail⟩

theorem Ok.store (h : r.Ok n) (a : α) : (r.store a).Ok n := ⟨h.head, h.tail⟩

theorem count_advance (h : r.Ok n) (hfull : ¬ r.Full n) : (r.advance n).count n = r.count n + 1 := by
  have hne : (if r.head + 1 = n then 0 else r.head + 1) ≠ r.tail := by
    rwa [← next_eq h.head]
  have hhead := h.head
  have htail := h.tail
  rw [count_eq h.advance, count_eq h]
  simp only [RingBuffer.advance, next_eq h.head]
  split_ifs at hne ⊢ <;> omega

theorem count_release (h : r.Ok n) (hempty : ¬ r.Empty) : r.count n = (r.release n).count n + 1 := by
  have hne : r.head ≠ r.tail := hempty
  have hhead := h.head
  have htail := h.tail
  rw [count_eq h.release, count_eq h]
  simp only [RingBuffer.release, next_eq h.tail]
  split_ifs <;> omega

/-- The slot after the newest item is the one at `head`. -/
theorem end_eq_head (h : r.Ok n) : (r.tail + r.count n) % n = r.head := by
  have hhead := h.head
  have htail := h.tail
  rw [count_eq h]
  split_ifs
  · rw [Nat.mod_eq_of_lt (by omega)]
    omega
  · rw [show r.tail + (r.head + n - r.tail) = r.head + n by omega, Nat.add_mod_right,
      Nat.mod_eq_of_lt hhead]

/-- No item is in the slot at `head`. -/
theorem item_ne_head (h : r.Ok n) (hi : i < r.count n) : (r.tail + i) % n ≠ r.head := by
  have hhead := h.head
  have htail := h.tail
  rw [count_eq h] at hi
  intro heq
  by_cases hwrap : r.tail + i < n
  · rw [Nat.mod_eq_of_lt hwrap] at heq
    split_ifs at hi <;> omega
  · rw [Nat.mod_eq_sub_mod (by omega), Nat.mod_eq_of_lt (by split_ifs at hi <;> omega)] at heq
    split_ifs at hi <;> omega

theorem length_contents (n : ℕ) (r : RingBuffer α) : (r.contents n).length = r.count n := by
  rw [contents, List.length_map, List.length_range]

theorem contents_empty (h : r.Ok n) (hempty : r.Empty) : r.contents n = [] := by
  have heq : r.head = r.tail := hempty
  rw [contents, count_eq h, if_pos heq.ge, heq, Nat.sub_self]
  rfl

theorem contents_store (h : r.Ok n) (a : α) : (r.store a).contents n = r.contents n := by
  refine List.map_congr_left fun i hi => ?_
  exact Function.update_of_ne (item_ne_head h (List.mem_range.1 hi)) ..

theorem contents_advance (h : r.Ok n) (hfull : ¬ r.Full n) :
    (r.advance n).contents n = r.contents n ++ [r.slots r.head] := by
  rw [contents, count_advance h hfull, List.range_succ, List.map_append]
  change r.contents n ++ [r.slots ((r.tail + r.count n) % n)] = _
  rw [end_eq_head h]

theorem contents_release (h : r.Ok n) (hempty : ¬ r.Empty) :
    r.contents n = r.slots r.tail :: (r.release n).contents n := by
  rw [contents, count_release h hempty, List.range_succ_eq_map, List.map_cons, List.map_map, contents]
  have hfirst : (r.tail + 0) % n = r.tail := Nat.mod_eq_of_lt h.tail
  rw [hfirst]
  refine congrArg _ (List.map_congr_left fun i _ => ?_)
  change r.slots ((r.tail + (i + 1)) % n) = r.slots ((next n r.tail + i) % n)
  rw [next, Nat.mod_add_mod]
  congr 2
  omega

/-- Taking the last free slot into use makes the ring look empty. -/
theorem advance_full (hfull : r.Full n) : (r.advance n).Empty := hfull

theorem count_full (h : r.Ok n) (hfull : r.Full n) : r.count n + 1 = n := by
  have heq : (if r.head + 1 = n then 0 else r.head + 1) = r.tail := by
    rwa [← next_eq h.head]
  have hhead := h.head
  have htail := h.tail
  rw [count_eq h]
  split_ifs at heq ⊢ <;> omega

/-- A ring that has given up a slot is not full. -/
theorem not_full_release (h : r.Ok n) (hempty : ¬ r.Empty) : ¬ (r.release n).Full n := by
  intro hfull
  have hcount := count_full h.release hfull
  have hold := count_release h hempty
  have hlt := count_lt h
  omega

end RingBuffer
