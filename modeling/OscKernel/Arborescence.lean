import Mathlib.Data.Set.Insert
import Mathlib.Logic.Relation

/-!
# Arborescences

`Arborescence r root T` says that the relation `r` from parents to children makes the set `T` a tree: all
of `T` is reached from the root, which is nobody's child, and nobody has two parents. A tree has no
cycle, and a new leaf keeps it a tree.
-/

open Relation

variable {α : Type*}

structure Arborescence (r : α → α → Prop) (root : α) (T : Set α) : Prop where
  root_mem : root ∈ T
  closed : ∀ a ∈ T, ∀ b, r a b → b ∈ T
  reach : ∀ a ∈ T, ReflTransGen r root a
  parent_unique : ∀ a ∈ T, ∀ b ∈ T, ∀ c, r a c → r b c → a = b
  root_top : ∀ a ∈ T, ¬ r a root

namespace Arborescence

variable {r r' : α → α → Prop} {root a b dir v : α} {T : Set α}

theorem single (h : ∀ b, ¬ r root b) : Arborescence r root {root} where
  root_mem := rfl
  closed := by
    rintro a rfl b hab
    exact absurd hab (h b)
  reach := by
    rintro a rfl
    exact ReflTransGen.refl
  parent_unique := by
    rintro a rfl b rfl c - -
    rfl
  root_top := by
    rintro a rfl
    exact h a

theorem mem_of_reach (h : Arborescence r root T) (ha : a ∈ T) (hab : ReflTransGen r a b) : b ∈ T := by
  induction hab with
  | refl => exact ha
  | tail _ hstep ih => exact h.closed _ ih _ hstep

/-- The set of a tree is what its root reaches. -/
theorem mem_iff (h : Arborescence r root T) : a ∈ T ↔ ReflTransGen r root a :=
  ⟨h.reach a, h.mem_of_reach h.root_mem⟩

/-- Nobody is below itself. -/
theorem acyclic (h : Arborescence r root T) (ha : a ∈ T) : ¬ TransGen r a a := by
  have hreach := h.reach a ha
  induction hreach with
  | refl =>
      intro hcycle
      obtain ⟨c, hac, hca⟩ := TransGen.tail'_iff.1 hcycle
      exact h.root_top c (h.mem_of_reach ha hac) hca
  | tail hab hstep ih =>
      rename_i b c
      intro hcycle
      have hb : b ∈ T := h.mem_iff.2 hab
      -- the cycle comes back to `c` through its only parent, so it goes through that parent
      obtain ⟨d, hcd, hdc⟩ := TransGen.tail'_iff.1 hcycle
      have hdb : d = b := h.parent_unique d (h.mem_of_reach ha hcd) b hb c hdc hstep
      subst hdb
      exact ih hb (TransGen.head' hstep hcd)

theorem congr (h : Arborescence r root T) (hr : ∀ a ∈ T, ∀ b, r' a b ↔ r a b) :
    Arborescence r' root T where
  root_mem := h.root_mem
  closed a ha b hab := h.closed a ha b ((hr a ha b).1 hab)
  reach a ha := by
    have hreach := h.reach a ha
    clear ha
    induction hreach with
    | refl => exact ReflTransGen.refl
    | tail hab hstep ih => exact ih.tail ((hr _ (h.mem_iff.2 hab) _).2 hstep)
  parent_unique a ha b hb c hac hbc :=
    h.parent_unique a ha b hb c ((hr a ha c).1 hac) ((hr b hb c).1 hbc)
  root_top a ha hroot := h.root_top a ha ((hr a ha root).1 hroot)

/-- A new leaf `v` below `dir`. -/
theorem grow (h : Arborescence r root T) (hdir : dir ∈ T) (hv : v ∉ T)
    (hr : ∀ a ∈ T, ∀ b, r' a b ↔ r a b ∨ a = dir ∧ b = v) (hleaf : ∀ b, ¬ r' v b) :
    Arborescence r' root (insert v T) where
  root_mem := Or.inr h.root_mem
  closed := by
    rintro a (rfl | ha) b hab
    · exact absurd hab (hleaf b)
    · rcases (hr a ha b).1 hab with hab | ⟨-, rfl⟩
      · exact Or.inr (h.closed a ha b hab)
      · exact Or.inl rfl
  reach := by
    have hold : ∀ a, ReflTransGen r root a → ReflTransGen r' root a := by
      intro a ha
      induction ha with
      | refl => exact ReflTransGen.refl
      | tail hab hstep ih => exact ih.tail ((hr _ (h.mem_iff.2 hab) _).2 (Or.inl hstep))
    rintro a (rfl | ha)
    · exact (hold dir (h.reach dir hdir)).tail ((hr dir hdir _).2 (Or.inr ⟨rfl, rfl⟩))
    · exact hold a (h.reach a ha)
  parent_unique := by
    have hnew : ∀ a ∈ T, ¬ r a v := fun a ha hav => hv (h.closed a ha v hav)
    rintro a (rfl | ha) b (rfl | hb) c hac hbc
    · rfl
    · exact absurd hac (hleaf c)
    · exact absurd hbc (hleaf c)
    · rcases (hr a ha c).1 hac with hac | ⟨rfl, rfl⟩ <;> rcases (hr b hb _).1 hbc with hbc | ⟨rfl, hcv⟩
      · exact h.parent_unique a ha b hb c hac hbc
      · exact absurd (hcv ▸ hac) (hnew a ha)
      · exact absurd hbc (hnew b hb)
      · rfl
  root_top := by
    rintro a (rfl | ha) har
    · exact hleaf root har
    · rcases (hr a ha root).1 har with har | ⟨-, rfl⟩
      · exact h.root_top a ha har
      · exact hv h.root_mem

end Arborescence
