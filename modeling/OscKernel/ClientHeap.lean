import OscKernel.FileSystem

/-!
# The heap of a client

What a client may assume of `alloc` and `free`: the blocks in use are apart from each other and not
empty, a new block is apart from them, and a failed allocation changes no block.
-/

namespace OscKernel.Vfs

open Mm (maxAllocSize memorySize)

theorem Apart.symm {p n : ℕ} {b : ℕ × ℕ} (h : Apart p n b) : Apart b.1 b.2 (p, n) := Or.comm.1 h

namespace Heap

variable {h : Heap} {n p : ℕ} {b c : ℕ × ℕ}

structure Ok (h : Heap) : Prop where
  apart : h.live.Pairwise fun b c => Apart b.1 b.2 c
  size_pos : ∀ b ∈ h.live, 0 < b.2
  start_pos : ∀ b ∈ h.live, 0 < b.1

/-- The two outcomes of `alloc`. -/
theorem alloc_cases (h : Heap) (n : ℕ) :
    (∃ h', h.alloc n = (h', 0) ∧ h'.live = h.live) ∨
    ∃ h' p, h.alloc n = (h', p) ∧ 0 < p ∧ 0 < n % 2 ^ 32 ∧ n % 2 ^ 32 ≤ maxAllocSize ∧
      (∀ b ∈ h.live, Apart p (n % 2 ^ 32) b) ∧ h'.live = (p, n % 2 ^ 32) :: h.live := by
  simp only [alloc]
  split_ifs with hfail
  · exact Or.inl ⟨_, rfl, rfl⟩
  · push Not at hfail
    obtain ⟨hsize, hmax, hp, -, hapart⟩ := hfail
    exact Or.inr ⟨_, _, rfl, by omega, by omega, by omega, fun b hb => hapart b hb, rfl⟩

/-- A block of the heap lies in the memory. -/
theorem alloc_le (h : Heap) (n : ℕ) : (h.alloc n).2 ≤ memorySize := by
  simp only [alloc]
  split_ifs with hfail
  · exact Nat.zero_le _
  · push Not at hfail
    have := hfail.2.2.2.1
    omega

theorem Ok.alloc (h1 : h.Ok) (n : ℕ) : (h.alloc n).1.Ok := by
  rcases h.alloc_cases n with ⟨h', heq, hlive⟩ | ⟨h', p, heq, hp, hn, -, hapart, hlive⟩
  · rw [heq]
    exact ⟨hlive ▸ h1.apart, hlive ▸ h1.size_pos, hlive ▸ h1.start_pos⟩
  · rw [heq]
    refine ⟨?_, ?_, ?_⟩ <;> simp only [hlive]
    · exact List.pairwise_cons.2 ⟨hapart, h1.apart⟩
    · rintro b hb
      rcases List.mem_cons.1 hb with rfl | hb
      · exact hn
      · exact h1.size_pos b hb
    · rintro b hb
      rcases List.mem_cons.1 hb with rfl | hb
      · exact hp
      · exact h1.start_pos b hb

theorem mem_free : b ∈ (h.free p).live ↔ b ∈ h.live ∧ b.1 ≠ p := by
  simp [free]

theorem Ok.free (h1 : h.Ok) (p : ℕ) : (h.free p).Ok := by
  refine ⟨?_, ?_, ?_⟩
  · exact h1.apart.filter _
  · intro b hb
    exact h1.size_pos b (mem_free.1 hb).1
  · intro b hb
    exact h1.start_pos b (mem_free.1 hb).1

theorem Ok.eq_or_apart (h1 : h.Ok) (hb : b ∈ h.live) (hc : c ∈ h.live) :
    b = c ∨ Apart b.1 b.2 c := by
  by_cases heq : b = c
  · exact Or.inl heq
  · have : Std.Symm fun b c : ℕ × ℕ => Apart b.1 b.2 c := ⟨fun _ _ hbc => hbc.symm⟩
    exact Or.inr (h1.apart.forall hb hc heq)

/-- A block in use is known by its start. -/
theorem Ok.eq_of_start (h1 : h.Ok) (hb : b ∈ h.live) (hc : c ∈ h.live) (hs : b.1 = c.1) : b = c := by
  rcases h1.eq_or_apart hb hc with heq | hapart
  · exact heq
  · have hb2 := h1.size_pos b hb
    have hc2 := h1.size_pos c hc
    rcases hapart with h2 | h2 <;> omega

theorem Ok.apart_of_start (h1 : h.Ok) (hb : b ∈ h.live) (hc : c ∈ h.live) (hs : b.1 ≠ c.1) :
    Apart b.1 b.2 c := by
  rcases h1.eq_or_apart hb hc with heq | hapart
  · exact absurd (congrArg Prod.fst heq) hs
  · exact hapart

theorem Ok.nodup (h1 : h.Ok) : h.live.Nodup := by
  refine h1.apart.imp_of_mem ?_
  rintro b c hb - hapart rfl
  have := h1.size_pos b hb
  rcases hapart with h2 | h2 <;> omega

/-- A new block does not start where a block in use does. -/
theorem Ok.start_ne (h1 : h.Ok) {k : ℕ} (hk : 0 < k) (hc : c ∈ h.live) (hapart : Apart p k c) :
    c.1 ≠ p := by
  have := h1.size_pos c hc
  rcases hapart with h2 | h2 <;> omega

end Heap

end OscKernel.Vfs
