import OscKernel.DyadicBlock
import OscKernel.PageAllocator

/-!
# Sizes, orders and page indices

`_alloc` serves a request with the least order whose blocks cover it, and the address arithmetic
of `mm.c` sends the first byte of a page in memory back to the index of the page.
-/

namespace OscKernel.Mm

theorem pageSize_pos : 0 < pageSize := by decide

theorem pageNum_mul_pageSize : pageNum * pageSize = memorySize := by decide

theorem maxBlockSize_eq : maxBlockSize = 2 ^ (maxOrder - 1) := by decide

theorem maxAllocSize_eq : maxAllocSize = 2 ^ (maxOrder - 1) * pageSize := by decide

theorem round_eq (size : ℕ) : round size = (size + pageSize - 1) / pageSize * pageSize := by
  have h := Nat.div_add_mod size pageSize
  have hp : pageSize = 4096 := rfl
  unfold round
  split_ifs with hm <;> rw [hp] at * <;> omega

theorem round_div (size : ℕ) : round size / pageSize = (size + pageSize - 1) / pageSize := by
  rw [round_eq, Nat.mul_div_cancel _ pageSize_pos]

/-- The pages that cover a request are the pages of its rounded size. -/
theorem round_div_le_iff (size m : ℕ) : round size / pageSize ≤ m ↔ size ≤ m * pageSize := by
  rw [round_div]
  have hp : pageSize = 4096 := rfl
  rw [hp]
  omega

theorem getOrderLoop_spec (size n order : ℕ) (hsize : size ≤ 2 ^ (order + n)) :
    size ≤ 2 ^ getOrderLoop size n order ∧ order ≤ getOrderLoop size n order ∧
      ∀ k, order ≤ k → size ≤ 2 ^ k → getOrderLoop size n order ≤ k := by
  induction n generalizing order with
  | zero => exact ⟨hsize, le_rfl, fun k hk _ => hk⟩
  | succ n ih =>
      rw [getOrderLoop, Nat.one_shiftLeft]
      split_ifs with hlt
      · obtain ⟨h₁, h₂, h₃⟩ := ih (order + 1) (by rwa [Nat.add_right_comm])
        refine ⟨h₁, by omega, fun k hk hs => h₃ k ?_ hs⟩
        by_contra hcon
        have : k = order := by omega
        subst this
        omega
      · exact ⟨by omega, le_rfl, fun k hk _ => hk⟩

/-- The order that `_alloc` looks for. -/
abbrev reqOrder (size : ℕ) : ℕ := getOrder (round size)

/-- The order of a request is the least one whose blocks cover the requested size. -/
theorem reqOrder_isLeast {size : ℕ} (hmax : size ≤ maxAllocSize) :
    IsLeast {k | size ≤ 2 ^ k * pageSize} (reqOrder size) := by
  have hle : round size / pageSize ≤ 2 ^ (0 + 32) := by
    rw [round_div_le_iff]
    have : maxAllocSize ≤ 2 ^ (0 + 32) * pageSize := by decide
    omega
  obtain ⟨h₁, -, h₃⟩ := getOrderLoop_spec (round size / pageSize) 32 0 hle
  constructor
  · exact (round_div_le_iff _ _).1 h₁
  · intro k hk
    exact h₃ k (Nat.zero_le k) ((round_div_le_iff _ _).2 hk)

theorem reqOrder_lt {size : ℕ} (hmax : size ≤ maxAllocSize) : reqOrder size < maxOrder := by
  have h : reqOrder size ≤ maxOrder - 1 := by
    apply (reqOrder_isLeast hmax).2
    rw [Set.mem_ofPred_eq, ← maxAllocSize_eq]
    exact hmax
  have : 0 < maxOrder := by decide
  omega

theorem getBuddy_start (B : DyadicBlock) : getBuddy B.start B.order = B.buddy.start := by
  rw [getBuddy, Nat.one_shiftLeft]
  rfl

theorem blockIdx_eq (i k : ℕ) : blockIdx i k = (DyadicBlock.containing i k).start := by
  have h := Nat.mod_add_div i (2 ^ k)
  rw [blockIdx, Nat.one_shiftLeft, Nat.and_two_pow_sub_one_eq_mod]
  change i - i % 2 ^ k = i / 2 ^ k * 2 ^ k
  rw [Nat.mul_comm]
  omega

theorem pageIdx_of_lt {ptr : ℕ} (h : ptr < memorySize) : pageIdx ptr = (ptr / pageSize : ℕ) := by
  have hm : memorySize = 0x3C000000 := rfl
  have hp : (pageSize : ℤ) = 4096 := rfl
  have h₁ : Int.bmod ((ptr : ℤ) - memoryStart) (2 ^ 64) = ptr := by
    rw [memoryStart, Int.bmod_eq_of_le] <;> omega
  have h₂ : Int.tdiv (ptr : ℤ) pageSize = (ptr / pageSize : ℕ) := rfl
  rw [pageIdx, h₁, h₂]
  have hlt : ptr / pageSize < memorySize := lt_of_le_of_lt (Nat.div_le_self _ _) h
  generalize ptr / pageSize = q at hlt
  apply Int.bmod_eq_of_le <;> omega

theorem pageIdx_page {i : ℕ} (hi : i < pageNum) : pageIdx (i * pageSize) = (i : ℤ) := by
  have hlt : i * pageSize < memorySize := by
    rw [← pageNum_mul_pageSize]
    exact Nat.mul_lt_mul_of_pos_right hi pageSize_pos
  rw [pageIdx_of_lt hlt, Nat.mul_div_cancel _ pageSize_pos]

end OscKernel.Mm
