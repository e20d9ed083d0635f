import Mathlib.Algebra.Order.Ring.Nat
import Mathlib.Data.Nat.Bitwise
import Mathlib.Order.Interval.Finset.Nat
import Mathlib.Tactic

/-!
# Dyadic blocks

A dyadic block covers `2 ^ order` consecutive cells from a start that is a multiple of its size.
Two blocks are nested or disjoint. The buddy of a block is the other half of the block of the next
order, obtained by flipping one bit of the start.
-/

structure DyadicBlock where
  start : ℕ
  order : ℕ
  aligned : 2 ^ order ∣ start
  deriving DecidableEq

namespace DyadicBlock

variable {B C : DyadicBlock} {i : ℕ}

@[ext] theorem ext (hs : B.start = C.start) (ho : B.order = C.order) : B = C := by
  cases B
  cases C
  simp only at hs ho
  subst hs ho
  rfl

def pages (B : DyadicBlock) : Finset ℕ := Finset.Ico B.start (B.start + 2 ^ B.order)

@[simp] theorem mem_pages : i ∈ B.pages ↔ B.start ≤ i ∧ i < B.start + 2 ^ B.order := by
  simp [pages]

theorem start_mem_pages (B : DyadicBlock) : B.start ∈ B.pages := by simp

theorem mem_pages_iff_div : i ∈ B.pages ↔ i / 2 ^ B.order = B.start / 2 ^ B.order := by
  have hpos : 0 < 2 ^ B.order := by positivity
  obtain ⟨q, hq⟩ := B.aligned
  rw [mem_pages, hq, Nat.mul_div_cancel_left q hpos]
  constructor
  · rintro ⟨hlo, hhi⟩
    rw [Nat.div_eq_iff hpos]
    constructor
    · rw [Nat.mul_comm]; exact hlo
    · rw [Nat.mul_comm]; omega
  · intro hd
    rw [Nat.div_eq_iff hpos, Nat.mul_comm] at hd
    omega

theorem eq_of_mem_of_order_eq (ho : B.order = C.order) (hB : i ∈ B.pages) (hC : i ∈ C.pages) :
    B = C := by
  refine ext ?_ ho
  rw [mem_pages_iff_div] at hB hC
  rw [← ho] at hC
  have hdiv : B.start / 2 ^ B.order = C.start / 2 ^ B.order := hB.symm.trans hC
  have hCal : 2 ^ B.order ∣ C.start := ho ▸ C.aligned
  rw [← Nat.div_mul_cancel B.aligned, hdiv, Nat.div_mul_cancel hCal]

/-- The block of order `k` that contains the cell `i`. -/
def containing (i k : ℕ) : DyadicBlock := ⟨i / 2 ^ k * 2 ^ k, k, Nat.dvd_mul_left _ _⟩

@[simp] theorem containing_order (i k : ℕ) : (containing i k).order = k := rfl

theorem mem_containing (i k : ℕ) : i ∈ (containing i k).pages := by
  rw [mem_pages_iff_div]
  exact (Nat.mul_div_cancel _ (by positivity)).symm

theorem subset_of_mem_of_order_le (ho : B.order ≤ C.order) (hB : i ∈ B.pages) (hC : i ∈ C.pages) :
    B.pages ⊆ C.pages := by
  intro j hj
  rw [mem_pages_iff_div] at hB hC hj ⊢
  obtain ⟨d, hd⟩ := Nat.exists_eq_add_of_le ho
  rw [hd, pow_add] at hC ⊢
  rw [← hC, ← Nat.div_div_eq_div_mul, ← Nat.div_div_eq_div_mul, hj, hB]

theorem order_le_of_subset (h : B.pages ⊆ C.pages) : B.order ≤ C.order := by
  have hcard := Finset.card_le_card h
  simp only [pages, Nat.card_Ico, Nat.add_sub_cancel_left] at hcard
  exact (Nat.pow_le_pow_iff_right (by omega)).1 hcard

theorem xor_one (q : ℕ) : q ^^^ 1 = if q % 2 = 0 then q + 1 else q - 1 := by
  split_ifs with hq
  · exact Nat.xor_one_of_even (Nat.even_iff.2 hq)
  · exact Nat.xor_one_of_odd (Nat.odd_iff.2 (by omega))

theorem mul_two_pow_xor (q k : ℕ) : q * 2 ^ k ^^^ 2 ^ k = (q ^^^ 1) * 2 ^ k := by
  simp only [← Nat.shiftLeft_eq]
  rw [Nat.shiftLeft_xor_distrib, Nat.one_shiftLeft]

def buddy (B : DyadicBlock) : DyadicBlock where
  start := B.start ^^^ 2 ^ B.order
  order := B.order
  aligned := by
    obtain ⟨q, hq⟩ := B.aligned
    rw [hq, Nat.mul_comm, mul_two_pow_xor]
    exact Nat.dvd_mul_left _ _

@[simp] theorem buddy_order (B : DyadicBlock) : B.buddy.order = B.order := rfl

theorem buddy_start (B : DyadicBlock) : B.buddy.start =
    if B.start / 2 ^ B.order % 2 = 0 then B.start + 2 ^ B.order else B.start - 2 ^ B.order := by
  obtain ⟨q, hq⟩ := B.aligned
  have hd : B.start / 2 ^ B.order = q := by rw [hq, Nat.mul_div_cancel_left q (by positivity)]
  change B.start ^^^ 2 ^ B.order = _
  rw [hd, hq, Nat.mul_comm, mul_two_pow_xor, xor_one]
  split_ifs with h
  · ring
  · exact Nat.sub_one_mul _ _

@[simp] theorem buddy_buddy (B : DyadicBlock) : B.buddy.buddy = B := by
  refine ext ?_ rfl
  change (B.start ^^^ 2 ^ B.order) ^^^ 2 ^ B.order = B.start
  rw [Nat.xor_assoc, Nat.xor_self, Nat.xor_zero]

theorem size_le_start_of_odd (h : ¬ B.start / 2 ^ B.order % 2 = 0) : 2 ^ B.order ≤ B.start := by
  by_contra hlt
  rw [Nat.div_eq_of_lt (by omega)] at h
  omega

theorem buddy_start_ne (B : DyadicBlock) : B.buddy.start ≠ B.start := by
  have hpos : 0 < 2 ^ B.order := by positivity
  rw [buddy_start]
  split_ifs with h
  · omega
  · have := size_le_start_of_odd h
    omega

theorem buddy_ne (B : DyadicBlock) : B.buddy ≠ B :=
  fun h => B.buddy_start_ne (congrArg start h)

theorem disjoint_buddy (B : DyadicBlock) : Disjoint B.pages B.buddy.pages := by
  rw [Finset.disjoint_left]
  intro i hi hi'
  exact B.buddy_ne (eq_of_mem_of_order_eq rfl hi' hi)

/-- The block of the next order made of a block and its buddy. -/
def parent (B : DyadicBlock) : DyadicBlock where
  start := min B.start B.buddy.start
  order := B.order + 1
  aligned := by
    obtain ⟨q, hq⟩ := B.aligned
    have hd : B.start / 2 ^ B.order = q := by rw [hq, Nat.mul_div_cancel_left q (by positivity)]
    rw [buddy_start, hd]
    split_ifs with h
    · rw [min_eq_left (Nat.le_add_right _ _), hq, pow_succ]
      exact Nat.mul_dvd_mul_left _ (Nat.dvd_of_mod_eq_zero h)
    · rw [min_eq_right (Nat.sub_le _ _), hq]
      have hsub : 2 ^ B.order * q - 2 ^ B.order = 2 ^ B.order * (q - 1) := by
        rw [Nat.mul_sub, Nat.mul_one]
      rw [hsub, pow_succ]
      exact Nat.mul_dvd_mul_left _ (by omega)

@[simp] theorem parent_order (B : DyadicBlock) : B.parent.order = B.order + 1 := rfl

theorem parent_buddy (B : DyadicBlock) : B.buddy.parent = B.parent := by
  apply ext
  · change min B.buddy.start B.buddy.buddy.start = min B.start B.buddy.start
    rw [buddy_buddy, min_comm]
  · rfl

theorem pages_parent (B : DyadicBlock) : B.parent.pages = B.pages ∪ B.buddy.pages := by
  ext i
  have hs := B.buddy_start
  have hps : B.parent.start = min B.start B.buddy.start := rfl
  simp only [Finset.mem_union, mem_pages, parent_order, buddy_order, hps, pow_succ]
  split_ifs at hs with h
  · omega
  · have := size_le_start_of_odd h
    omega

def lower (B : DyadicBlock) : DyadicBlock :=
  ⟨B.start, B.order - 1, (Nat.pow_dvd_pow 2 (Nat.sub_le _ _)).trans B.aligned⟩

def upper (B : DyadicBlock) : DyadicBlock :=
  ⟨B.start + 2 ^ (B.order - 1), B.order - 1,
    (Nat.dvd_add_left dvd_rfl).2 ((Nat.pow_dvd_pow 2 (Nat.sub_le _ _)).trans B.aligned)⟩

@[simp] theorem lower_start (B : DyadicBlock) : B.lower.start = B.start := rfl
@[simp] theorem lower_order (B : DyadicBlock) : B.lower.order = B.order - 1 := rfl
@[simp] theorem upper_start (B : DyadicBlock) : B.upper.start = B.start + 2 ^ (B.order - 1) := rfl
@[simp] theorem upper_order (B : DyadicBlock) : B.upper.order = B.order - 1 := rfl

theorem buddy_lower (h : 0 < B.order) : B.lower.buddy = B.upper := by
  refine ext ?_ rfl
  obtain ⟨q, hq⟩ := B.aligned
  obtain ⟨k, hk⟩ := Nat.exists_eq_succ_of_ne_zero h.ne'
  rw [buddy_start, if_pos]
  · rfl
  · simp only [lower_start, lower_order, hk, Nat.succ_sub_one]
    rw [hq, hk, pow_succ, Nat.mul_assoc, Nat.mul_div_cancel_left _ (by positivity)]
    exact Nat.mul_mod_right 2 q

theorem buddy_upper (h : 0 < B.order) : B.upper.buddy = B.lower := by
  rw [← buddy_lower h, buddy_buddy]

theorem parent_lower (h : 0 < B.order) : B.lower.parent = B := by
  apply ext
  · change min B.start B.lower.buddy.start = B.start
    rw [buddy_lower h, upper_start]
    exact min_eq_left (Nat.le_add_right _ _)
  · exact Nat.sub_add_cancel h

theorem pages_halves (h : 0 < B.order) : B.pages = B.lower.pages ∪ B.upper.pages := by
  rw [← buddy_lower h, ← pages_parent, parent_lower h]

theorem disjoint_halves (h : 0 < B.order) : Disjoint B.lower.pages B.upper.pages := by
  rw [← buddy_lower h]
  exact B.lower.disjoint_buddy

end DyadicBlock
