import OscKernel.ClientHeap
import OscKernel.HeapContents

/-!
# The heap that the file system sees

The model of the file system keeps of the allocator only which blocks are in use, and lets any sequence of
addresses be tried. Every run of `alloc` and `free` is one of that heap: the addresses are those that `alloc`
returns, and the blocks in use are the same all along.
-/

namespace OscKernel.Alloc

open Mm Relation Runs

/-- What `alloc` returns. -/
def Sys.answer (s : Sys) : Op → ℕ
  | .alloc size => (alloc s.heap size).2
  | _ => 0

/-- A call with what it returns. The size is an `unsigned int`. -/
def Answers (L : Layout) (s : Sys) (i : Op × ℕ) (s' : Sys) : Prop :=
  StepBy L s i.1 s' ∧ (∀ size, i.1 = .alloc size → size < 2 ^ 32) ∧ i.2 = s.answer i.1

/-- The same call on the heap of the file system. -/
def HeapDoes (h : Vfs.Heap) (i : Op × ℕ) (h' : Vfs.Heap) : Prop :=
  match i.1 with
  | .alloc size => h.alloc size = (h', i.2)
  | .free ptr _ => h.free ptr = h'
  | .write _ _ => h' = h

/-- What the calls of `alloc` in a run return. -/
def addresses : List (Op × ℕ) → List ℕ
  | [] => []
  | (.alloc _, p) :: l => p :: addresses l
  | (.free _ _, _) :: l => addresses l
  | (.write _ _, _) :: l => addresses l

variable {fixed : Finset DyadicBlock} {s s' : Sys} {L : Layout} {size ptr : ℕ} {l l' : List (Op × ℕ)}
  {h : Vfs.Heap} {a b : ℕ × ℕ} {op : Op}

theorem addresses_append (l l' : List (Op × ℕ)) : addresses (l ++ l') = addresses l ++ addresses l' := by
  induction l with
  | nil => rfl
  | cons i l ih =>
      obtain ⟨op, p⟩ := i
      cases op with
      | alloc size => exact congrArg (p :: ·) ih
      | free ptr size => exact ih
      | write addr value => exact ih

/-- A run of the allocator keeps this: the invariant, and no block is empty. -/
def Served (fixed : Finset DyadicBlock) (s : Sys) : Prop := Running fixed s ∧ ∀ a ∈ s.live, 0 < a.2

theorem served_stable (hker : rangePages 0x80000 L.stackTop ⊆ fixed.biUnion DyadicBlock.pages) :
    Stable (Sys.Step L) (Served fixed) := by
  rintro s _ ⟨hrun, hpos⟩ ⟨op, hvalid, rfl⟩
  refine ⟨running_stable hker hrun ⟨op, hvalid, rfl⟩, ?_⟩
  cases op with
  | alloc size =>
      intro a ha
      by_cases hzero : (alloc s.heap size).2 = 0
      · simp only [Sys.step, if_pos hzero] at ha
        exact hpos a ha
      · simp only [Sys.step, if_neg hzero, List.mem_cons] at ha
        rcases ha with rfl | ha
        · refine Nat.pos_of_ne_zero fun h0 => hzero ?_
          dsimp only at h0
          rw [h0]
          rfl
        · exact hpos a ha
  | free ptr size => exact fun a ha => hpos a (List.mem_of_mem_erase ha)
  | write addr value => exact hpos

theorem apart_of_disjoint (ha : 0 < a.2) (hb : 0 < b.2) (hdisj : Disjoint (area a) (area b)) :
    Vfs.Apart a.1 a.2 b := by
  by_contra hno
  rw [Vfs.Apart, not_or] at hno
  have hin : max a.1 b.1 ∈ area a ∧ max a.1 b.1 ∈ area b := by
    rw [area, area, Finset.mem_Ico, Finset.mem_Ico]
    omega
  exact Finset.disjoint_left.1 hdisj hin.1 hin.2

/-- No request above the largest block is served. -/
theorem noBlock_of_large {mm : Mm.State} (hlarge : maxAllocSize < size) : NoBlock mm size := by
  intro k hk hle
  refine absurd hle (not_le.2 (lt_of_le_of_lt ?_ hlarge))
  rw [maxAllocSize_eq]
  exact Nat.mul_le_mul_right _ (Nat.pow_le_pow_right (by decide) (by omega))

/-- A block that `alloc` returns is one that the heap may give. -/
theorem Served.heap_alloc (hs : Served fixed s)
    (hker : rangePages 0x80000 L.stackTop ⊆ fixed.biUnion DyadicBlock.pages) (hsize : size < 2 ^ 32)
    (hlive : h.live = s.live) (hplan : h.plan h.calls = (alloc s.heap size).2) :
    h.alloc size = ({ h with live := (s.step L (.alloc size)).live, calls := h.calls + 1 },
      (alloc s.heap size).2) := by
  have hnext : Served fixed (s.step L (.alloc size)) := served_stable hker hs ⟨.alloc size, trivial, rfl⟩
  rw [Vfs.Heap.alloc]
  dsimp only
  rw [Nat.mod_eq_of_lt hsize, hplan]
  by_cases hzero : (alloc s.heap size).2 = 0
  · rw [if_pos (Or.inr (Or.inr (Or.inl hzero)))]
    simp only [Sys.step, if_pos hzero, hlive]
    rw [hzero]
  obtain ⟨⟨carved, F, p, hinv⟩, hpos⟩ := hs
  obtain ⟨⟨carved', F', p', hinv'⟩, hpos'⟩ := hnext
  have hlive' : (s.step L (.alloc size)).live = ((alloc s.heap size).2, size) :: s.live := by
    simp only [Sys.step, if_neg hzero]
  have hmem : ((alloc s.heap size).2, size) ∈ (s.step L (.alloc size)).live := by
    rw [hlive']
    exact List.mem_cons_self
  have hnew : 0 < size := hpos' _ hmem
  have hmax : size ≤ maxAllocSize := by
    by_contra hlarge
    refine hzero ((hinv.alloc_serves size).1.2 (Or.inr (Or.inl ⟨?_, noBlock_of_large (not_le.1 hlarge)⟩)))
    exact lt_of_le_of_lt (by decide) (not_le.1 hlarge)
  have hinside : (alloc s.heap size).2 + size ≤ memorySize := by
    have hlast := ((hinv'.placed hmem).inside ((alloc s.heap size).2 + size - 1) (by
      rw [area, Finset.mem_Ico]
      dsimp only
      omega)).2
    omega
  have hapart : ∀ b ∈ s.live, Vfs.Apart (alloc s.heap size).2 size b := by
    intro b hb
    have hpair := (hinv'.safe hker).apart
    rw [hlive'] at hpair
    exact apart_of_disjoint hnew (hpos b hb) (List.rel_of_pairwise_cons hpair hb)
  rw [if_neg, hlive', hlive]
  rw [hlive]
  push Not
  exact ⟨by omega, hmax, hzero, hinside, hapart⟩

/-- `free` takes out the block that starts there. -/
theorem Served.heap_free (hs : Served fixed s) (hin : (ptr, size) ∈ s.live) (hlive : h.live = s.live) :
    h.free ptr = { h with live := (s.step L (.free ptr size)).live } := by
  obtain ⟨⟨carved, F, p, hinv⟩, -⟩ := hs
  have hnodup := hinv.nodup
  refine congrArg (fun live => { h with live := live }) ?_
  change h.live.filter _ = s.live.erase _
  rw [hlive, (List.Nodup.of_map _ hnodup).erase_eq_filter]
  refine List.filter_congr fun b hb => ?_
  have hiff : b.1 ≠ ptr ↔ b ≠ (ptr, size) := by
    refine not_congr ⟨fun heq => ?_, fun heq => congrArg Prod.fst heq⟩
    exact List.inj_on_of_nodup_map hnodup hb hin heq
  rw [Bool.eq_iff_iff, decide_eq_true_iff, bne_iff_ne]
  exact hiff

theorem Served.heap_run {heap : State} (h0 : Served fixed ⟨heap, []⟩)
    (hker : rangePages 0x80000 L.stackTop ⊆ fixed.biUnion DyadicBlock.pages)
    (hrun : Trace (Answers L) ⟨heap, []⟩ l s) : Served fixed s ∧ ∀ l',
      Trace HeapDoes ⟨[], fun i => (addresses (l ++ l')).getD i 0, 0⟩ l
        ⟨s.live, fun i => (addresses (l ++ l')).getD i 0, (addresses l).length⟩ := by
  induction hrun with
  | nil => exact ⟨h0, fun l' => Trace.nil⟩
  | @snoc l i s₁ s₂ _ hstep ih =>
      obtain ⟨hserved, hheap⟩ := ih
      obtain ⟨op, p⟩ := i
      obtain ⟨⟨hvalid, rfl⟩, hsize, hp⟩ := hstep
      refine ⟨served_stable hker hserved ⟨op, hvalid, rfl⟩, fun l' => ?_⟩
      have hbefore := hheap ((op, p) :: l')
      rw [List.append_cons] at hbefore
      refine hbefore.snoc ?_
      dsimp only at hp hsize
      cases op with
      | alloc size =>
          obtain rfl : p = (alloc s₁.heap size).2 := hp
          have hplan : (addresses (l ++ [(.alloc size, (alloc s₁.heap size).2)] ++ l')).getD
              (addresses l).length 0 = (alloc s₁.heap size).2 := by
            rw [addresses_append, addresses_append, List.append_assoc,
              List.getD_append_right _ _ _ _ le_rfl, Nat.sub_self]
            rfl
          have hlen : (addresses (l ++ [(.alloc size, (alloc s₁.heap size).2)])).length =
              (addresses l).length + 1 := by
            rw [addresses_append, List.length_append]
            rfl
          rw [hlen]
          exact hserved.heap_alloc hker (hsize size rfl) rfl hplan
      | free ptr size =>
          have hlen : addresses (l ++ [(.free ptr size, p)]) = addresses l := by
            rw [addresses_append]
            exact List.append_nil _
          rw [hlen]
          exact hserved.heap_free hvalid rfl
      | write addr value =>
          have hlen : addresses (l ++ [(.write addr value, p)]) = addresses l := by
            rw [addresses_append]
            exact List.append_nil _
          rw [hlen]
          rfl

/-- Every run of the allocator from the boot is a run of the heap of the file system with the same results and
the same blocks in use. -/
theorem heap_contract {mem : ℕ → ℕ} {kmemCaches : ℕ → KmemCache}
    (hrun : Trace (Answers L) ⟨boot L mem kmemCaches, []⟩ l s) :
    ∃ plan h, Trace HeapDoes ⟨[], plan, 0⟩ l h ∧ h.live = s.live := by
  obtain ⟨fixed, hker, hstart⟩ := boot_running L mem kmemCaches
  have h0 : Served fixed ⟨boot L mem kmemCaches, []⟩ := ⟨hstart, fun a ha => absurd ha List.not_mem_nil⟩
  exact ⟨_, _, (h0.heap_run hker hrun).2 [], rfl⟩

end OscKernel.Alloc
