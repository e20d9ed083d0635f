import Mathlib.Data.List.Chain
import Mathlib.Logic.Relation

/-!
# Runs of a transition relation

A run is a chain of steps, `Relation.ReflTransGen`. What every step keeps, every run keeps. A
`Trace` is a run that records the label of each step, and a step by step simulation of one labelled
relation by another turns every trace of the first into the same trace of the second.
-/

namespace Runs

open Relation

variable {σ τ ι : Type*} {r : σ → σ → Prop} {s s' s'' : σ} {t : τ} {l : List ι}

def Stable (r : σ → σ → Prop) (I : σ → Prop) : Prop := ∀ ⦃s s'⦄, I s → r s s' → I s'

theorem Stable.run {I : σ → Prop} (h : Stable r I) (h0 : I s) (hr : ReflTransGen r s s') : I s' := by
  induction hr with
  | refl => exact h0
  | tail _ hstep ih => exact h ih hstep

/-- Where a step keeps `W` exactly if it is a good one, a run keeps `W` all along exactly if all its steps
are good. -/
theorem Stable.isChain_iff {I W : σ → Prop} {good : σ → σ → Prop} (h : Stable r I)
    (hstep : ∀ s s', I s → W s → r s s' → (W s' ↔ good s s')) {run : List σ}
    (hI : I s) (hW : W s) (hrun : List.IsChain r (s :: run)) :
    (∀ s' ∈ run, W s') ↔ List.IsChain good (s :: run) := by
  induction run generalizing s with
  | nil => simp
  | cons t run ih =>
      obtain ⟨hr, hrun⟩ := List.isChain_cons_cons.1 hrun
      rw [List.forall_mem_cons, List.isChain_cons_cons, ← hstep s t hI hW hr]
      exact and_congr_right fun ht => ih (h hI hr) ht hrun

inductive Trace (p : σ → ι → σ → Prop) (s : σ) : List ι → σ → Prop
  | nil : Trace p s [] s
  | snoc {l : List ι} {i : ι} {s' s'' : σ} : Trace p s l s' → p s' i s'' → Trace p s (l ++ [i]) s''

variable {p : σ → ι → σ → Prop} {q : τ → ι → τ → Prop}

theorem Trace.eq_of_nil (h : Trace p s [] s') : s' = s := by
  generalize hl : ([] : List ι) = l at h
  cases h with
  | nil => rfl
  | snoc => exact absurd hl.symm (List.concat_ne_nil _ _)

theorem Trace.of_snoc (h : Trace p s (l ++ [i]) s'') : ∃ s', Trace p s l s' ∧ p s' i s'' := by
  generalize hl : l ++ [i] = l' at h
  cases h with
  | nil => exact absurd hl (List.concat_ne_nil _ _)
  | snoc hrun hstep =>
      obtain ⟨rfl, heq⟩ := List.append_inj' hl rfl
      obtain rfl := List.head_eq_of_cons_eq heq
      exact ⟨_, hrun, hstep⟩

/-- Every step of `p` is answered by a step of `q` with the same label between related states. -/
def Simulates (p : σ → ι → σ → Prop) (q : τ → ι → τ → Prop) (R : σ → τ → Prop) : Prop :=
  ∀ ⦃s i s' t⦄, R s t → p s i s' → ∃ t', R s' t' ∧ q t i t'

theorem Simulates.run {R : σ → τ → Prop} (h : Simulates p q R) (h0 : R s t) (hr : Trace p s l s') :
    ∃ t', R s' t' ∧ Trace q t l t' := by
  induction hr with
  | nil => exact ⟨t, h0, Trace.nil⟩
  | snoc _ hstep ih =>
      obtain ⟨t₁, h₁, hq₁⟩ := ih
      obtain ⟨t₂, h₂, hq₂⟩ := h h₁ hstep
      exact ⟨t₂, h₂, hq₁.snoc hq₂⟩

/-- What holds of every label of a list and the labels before it, in a list with one label more. -/
theorem forall_split_concat {P : List ι → ι → Prop} (l : List ι) (i : ι) :
    (∀ l₁ j l₂, l ++ [i] = l₁ ++ j :: l₂ → P l₁ j) ↔
      (∀ l₁ j l₂, l = l₁ ++ j :: l₂ → P l₁ j) ∧ P l i := by
  constructor
  · intro h
    refine ⟨fun l₁ j l₂ hl => h l₁ j (l₂ ++ [i]) ?_, h l i [] rfl⟩
    rw [hl, List.append_assoc, List.cons_append]
  · rintro ⟨h, hi⟩ l₁ j l₂ hl
    rcases List.eq_nil_or_concat l₂ with rfl | ⟨l₃, k, rfl⟩
    · obtain ⟨rfl, heq⟩ := List.append_inj' hl rfl
      obtain rfl := List.head_eq_of_cons_eq heq
      exact hi
    · rw [List.concat_eq_append, ← List.cons_append, ← List.append_assoc] at hl
      exact h l₁ j l₃ (List.append_inj' hl rfl).1

end Runs
