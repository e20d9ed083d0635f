import OscKernel.ClientHeap
import OscKernel.SortedLinks

/-!
# Sorted lists of heap nodes

A sorted list whose nodes are blocks of the heap, next to nodes that have been taken off the list and are
not free yet. Both lists of the kernel whose nodes are executed, the timers and the tasks, are such lists.
-/

namespace OscKernel.NodeLists

open SortedLinks Linked
open Vfs (Heap)

variable {K : Type*} {L : Layout K} {m m₁ : ByteMem} {h h' : Heap} {head node a : ℕ}
  {l running : List ℕ}

structure Fresh (L : Layout K) (m : ByteMem) (h : Heap) (l running : List ℕ) (h' : Heap) (node : ℕ)
    (m₁ : ByteMem) : Prop where
  bounds : 0 < node ∧ node < 2 ^ 64
  apart : ∀ a ∈ l, L.Apart node a
  new : node ∉ l ++ running
  heap : h'.Ok
  live : h'.live = (node, L.size) :: h.live
  outside : ∀ x, x < node ∨ node + L.size ≤ x → m₁ x = m x

theorem Fresh.same (hf : Fresh L m h l running h' node m₁) (ha : a ∈ l) :
    ∀ x, a ≤ x → x < a + L.size → m₁ x = m x := by
  intro x hlo hhi
  apply hf.outside
  have hap := hf.apart a ha
  rw [Layout.Apart] at hap
  omega

variable [LinearOrder K]

/-- The nodes `l` of the list and the nodes `running` that are off the list are blocks of their own. -/
structure Placed (L : Layout K) (m : ByteMem) (h : Heap) (head : ℕ) (l running : List ℕ) : Prop where
  list : SortedList L m head l
  heap : h.Ok
  live : ∀ a ∈ l ++ running, (a, L.size) ∈ h.live
  nodup : (l ++ running).Nodup

theorem Placed.empty (hok : h.Ok) : Placed L m h 0 [] [] :=
  ⟨⟨rfl, List.Pairwise.nil, List.Pairwise.nil, by simp⟩, hok, by simp, List.nodup_nil⟩

theorem Placed.length_le (hp : Placed L m h head l running) : l.length ≤ h.live.length := by
  have hnodup : (l.map fun a => (a, L.size)).Nodup :=
    (List.nodup_append.1 hp.nodup).1.map fun a b hab => congrArg Prod.fst hab
  have hsub : (l.map fun a => (a, L.size)) ⊆ h.live := by
    intro b hb
    obtain ⟨a, ha, rfl⟩ := List.mem_map.1 hb
    exact hp.live a (List.mem_append_left _ ha)
  rw [← List.length_map fun a : ℕ => (a, L.size)]
  exact (List.subperm_of_subset hnodup hsub).length_le

theorem Placed.alloc_failed (hp : Placed L m h head l running) {n : ℕ} (hfail : (h.alloc n).2 = 0) :
    Placed L m (h.alloc n).1 head l running := by
  refine ⟨hp.list, hp.heap.alloc n, fun a ha => ?_, hp.nodup⟩
  obtain ⟨h₁, heq, hlive⟩ | ⟨h₁, p, heq, hpos, -⟩ := h.alloc_cases n
  · rw [heq, hlive]
    exact hp.live a ha
  · rw [heq] at hfail
    exact absurd hfail hpos.ne'

theorem Placed.fresh (hp : Placed L m h head l running) (hsize : L.size < 2 ^ 32)
    (halloc : h.alloc L.size = (h', node)) (hne : node ≠ 0)
    (hout : ∀ x, x < node ∨ node + L.size ≤ x → m₁ x = m x) : Fresh L m h l running h' node m₁ := by
  have hok := hp.heap.alloc L.size
  have hle := h.alloc_le L.size
  rw [halloc] at hok hle
  obtain ⟨h₁, heq, -⟩ | ⟨h₁, p, heq, hpos, hn, -, hapart, hlive⟩ := h.alloc_cases L.size
  · exact absurd (congrArg Prod.snd (halloc.symm.trans heq)) hne
  · obtain ⟨rfl, rfl⟩ := Prod.mk.inj (halloc.symm.trans heq)
    rw [Nat.mod_eq_of_lt hsize] at hn hapart hlive
    have hnew : node ∉ l ++ running := fun hmem =>
      hp.heap.start_ne hn (hp.live node hmem) (hapart _ (hp.live node hmem)) rfl
    exact ⟨⟨hpos, hle.trans_lt (by decide)⟩, fun a ha => hapart _ (hp.live a (List.mem_append_left _ ha)),
      hnew, hok, hlive, hout⟩

section Add

variable (hp : Placed L m h head l running) (hf : Fresh L m h l running h' node m₁)
include hp hf

theorem Fresh.sorted : SortedList L m₁ head l :=
  hp.list.congr (fun _ ha => next_congr (hf.same ha)) fun _ ha =>
    L.key_congr fun x hlo hhi => hf.same ha x (by omega) hhi

theorem Fresh.inserted : Inserted L m₁ head node l (link L m₁ head node h.live.length) :=
  link_spec (hf.sorted hp) hf.bounds hf.apart hp.length_le

theorem Placed.add : Placed L (link L m₁ head node h.live.length).1 h'
    (link L m₁ head node h.live.length).2.1 (l.orderedInsert (L.Le m₁) node) running := by
  have hperm := (List.perm_orderedInsert (L.Le m₁) node l).append_right running
  refine ⟨(hf.inserted hp).list, hf.heap, fun a ha => ?_, ?_⟩
  · rw [hf.live]
    rcases List.mem_cons.1 (hperm.mem_iff.1 ha) with rfl | ha
    · exact List.mem_cons_self
    · exact List.mem_cons_of_mem _ (hp.live a ha)
  · exact hperm.nodup_iff.2 (List.nodup_cons.2 ⟨hf.new, hp.nodup⟩)

/-- The key of the head is not touched by filling the new node. -/
theorem Fresh.atHead_iff : AtHead L m₁ head node ↔ head = 0 ∨ L.key m₁ node ≤ L.key m head := by
  rw [AtHead]
  refine or_congr_right' fun hne => ?_
  obtain ⟨t, rfl⟩ := hp.list.exists_cons hne
  rw [L.key_congr fun x hlo hhi => hf.same List.mem_cons_self x (by omega) hhi]

theorem Placed.add_wellLinked_iff (hw : WellLinked L m head) :
    WellLinked L (link L m₁ head node h.live.length).1 (link L m₁ head node h.live.length).2.1 ↔
      head = 0 ∨ L.key m₁ node ≤ L.key m head := by
  have hsorted := hf.sorted hp
  have hw₁ : WellLinked L m₁ head := by
    rw [hsorted.wellLinked_iff]
    exact (hp.list.wellLinked_iff.1 hw).congr
      (fun _ ha => congrArg ptr (next_congr (hf.same ha)))
      fun _ ha => congrArg ptr (prev_congr (hf.same ha))
  rw [← hf.atHead_iff hp]
  constructor
  · intro h'
    by_contra hat
    exact link_behind_not_wellLinked hsorted hf.bounds hf.apart hp.length_le hat h'
  · exact link_front_wellLinked hsorted hf.bounds hf.apart hp.length_le hw₁

end Add

/-- The head goes from the list to the running nodes. -/
theorem Placed.unlink (hp : Placed L m h head l running) (hhead : head ≠ 0) :
    Placed L (unlink m head) h (next m head) l.tail (head :: running) := by
  obtain ⟨t, rfl⟩ := hp.list.exists_cons hhead
  have hmove : (t ++ head :: running).Perm (head :: t ++ running) := List.perm_middle
  exact ⟨unlink_sorted hp.list, hp.heap, fun a ha => hp.live a (hmove.mem_iff.1 ha),
    hmove.nodup_iff.2 hp.nodup⟩

theorem Placed.unlink_wellLinked (hp : Placed L m h head l running) (hhead : head ≠ 0)
    (hw : WellLinked L m head) : WellLinked L (SortedLinks.unlink m head) (next m head) := by
  obtain ⟨t, rfl⟩ := hp.list.exists_cons hhead
  exact SortedLinks.unlink_wellLinked hp.list hw

/-- A running node is freed. -/
theorem Placed.free (hp : Placed L m h head l (a :: running)) : Placed L m (h.free a) head l running := by
  obtain ⟨hnot, hnodup⟩ := List.nodup_cons.1 (List.nodup_middle.1 hp.nodup)
  refine ⟨hp.list, hp.heap.free a, fun b hb => ?_, hnodup⟩
  refine Heap.mem_free.2 ⟨hp.live b (List.perm_middle.mem_iff.2 (List.mem_cons_of_mem a hb)), ?_⟩
  rintro rfl
  exact hnot hb

end OscKernel.NodeLists
