import Mathlib.Data.List.Sort
import OscKernel.Runs

/-!
# A stack for every key

Items wait in the order of their keys, a new one before those with the same key, and the first one is
taken. Then the items of each key are a stack of their own, and an item is taken only when the stacks of
all smaller keys are empty. So what happened before says which item that is.
-/

namespace PriorityStacks

open Runs

variable {α K : Type*} [LinearOrder K] {key : α → K} {k : K} {a b : α} {l l' : List α}

def Before (key : α → K) (a b : α) : Prop := key a ≤ key b

instance before_decidable (key : α → K) : DecidableRel (Before key) :=
  fun _ _ => inferInstanceAs (Decidable (_ ≤ _))

instance before_total (key : α → K) : Std.Total (Before key) := ⟨fun _ _ => le_total _ _⟩

instance before_trans (key : α → K) : IsTrans α (Before key) := ⟨fun _ _ _ => le_trans⟩

inductive Event (α : Type*)
  | push (a : α)
  | pop (a : α)

inductive Step (key : α → K) : List α → Event α → List α → Prop
  | push (a : α) (l : List α) : Step key l (.push a) (l.orderedInsert (Before key) a)
  | pop (a : α) (l : List α) : Step key (a :: l) (.pop a) l

def ofKey (key : α → K) (k : K) (l : List α) : List α := l.filter fun a => key a = k

def Event.onStack (key : α → K) (k : K) (l : List α) : Event α → List α
  | .push a => if key a = k then a :: l else l
  | .pop a => if key a = k then l.tail else l

/-- The stack of the key `k` after some events: no other key has a part in it. -/
def stack (key : α → K) (k : K) (events : List (Event α)) : List α :=
  events.foldl (Event.onStack key k) []

def Event.pushed : Event α → Option α
  | .push a => some a
  | .pop _ => none

def Event.popped : Event α → Option α
  | .push _ => none
  | .pop a => some a

/-- The item that is taken next after these events: the top of its stack, with no smaller one waiting. -/
def Next (key : α → K) (events : List (Event α)) (a : α) : Prop :=
  (stack key (key a) events).head? = some a ∧ ∀ k < key a, stack key k events = []

theorem stack_concat (events : List (Event α)) (e : Event α) :
    stack key k (events ++ [e]) = e.onStack key k (stack key k events) := by
  rw [stack, stack, List.foldl_append]
  rfl

/-- A new item goes on top of the stack of its key and leaves the other stacks alone. -/
theorem ofKey_insert (hl : l.Pairwise (Before key)) :
    ofKey key k (l.orderedInsert (Before key) a) =
      if key a = k then a :: ofKey key k l else ofKey key k l := by
  induction l with
  | nil => simp [ofKey, List.filter_cons]
  | cons b l ih =>
      by_cases hab : Before key a b
      · rw [List.orderedInsert_cons_of_le _ _ hab, ofKey, List.filter_cons]
        simp only [decide_eq_true_eq]
        rfl
      · have hb : key b < key a := not_le.1 hab
        have ih := ih (List.pairwise_cons.1 hl).2
        rw [List.orderedInsert_of_not_le _ _ hab, ofKey, List.filter_cons, ← ofKey, ih, ofKey, ofKey,
          List.filter_cons]
        simp only [decide_eq_true_eq]
        split_ifs with hbk hak
        · exact absurd (hbk.trans hak.symm) hb.ne
        · rfl
        · rfl
        · rfl

theorem ofKey_cons : ofKey key k (a :: l) = if key a = k then a :: ofKey key k l else ofKey key k l := by
  rw [ofKey, List.filter_cons]
  simp only [decide_eq_true_eq]
  rfl

/-- A smaller item than the first one of a sorted list does not wait. -/
theorem ofKey_of_lt (hl : (a :: l).Pairwise (Before key)) (hk : k < key a) : ofKey key k (a :: l) = [] := by
  rw [ofKey, List.filter_eq_nil_iff]
  intro b hb heq
  have heq : key b = k := of_decide_eq_true heq
  rcases List.mem_cons.1 hb with rfl | hb
  · exact hk.ne' heq
  · have hab : key a ≤ key b := (List.pairwise_cons.1 hl).1 b hb
    exact absurd (heq ▸ hab) hk.not_ge

theorem Step.sorted {e : Event α} (h : Step key l e l') (hl : l.Pairwise (Before key)) :
    l'.Pairwise (Before key) := by
  cases h with
  | push a l => exact hl.orderedInsert a l
  | pop a l => exact (List.pairwise_cons.1 hl).2

theorem Step.ofKey {e : Event α} (h : Step key l e l') (hl : l.Pairwise (Before key)) (k : K) :
    ofKey key k l' = e.onStack key k (ofKey key k l) := by
  cases h with
  | push a l => exact ofKey_insert hl
  | pop a l =>
      rw [ofKey_cons, Event.onStack]
      split_ifs <;> rfl

structure Waiting (key : α → K) (events : List (Event α)) (l : List α) : Prop where
  sorted : l.Pairwise (Before key)
  ofKey : ∀ k, ofKey key k l = stack key k events
  conserved : (events.filterMap Event.pushed).Perm (events.filterMap Event.popped ++ l)
  next : ∀ events₁ e events₂, events = events₁ ++ e :: events₂ → ∀ a ∈ e.popped, Next key events₁ a

theorem Waiting.nil : Waiting key [] ([] : List α) :=
  ⟨List.Pairwise.nil, fun _ => rfl, List.Perm.refl _, fun _ _ _ h => absurd h (by simp)⟩

theorem Waiting.step {events : List (Event α)} {e : Event α} (h : Waiting key events l)
    (hstep : Step key l e l') : Waiting key (events ++ [e]) l' := by
  refine ⟨hstep.sorted h.sorted, fun k => ?_, ?_, ?_⟩
  · rw [hstep.ofKey h.sorted, h.ofKey, stack_concat]
  · rw [List.filterMap_append, List.filterMap_append]
    cases hstep with
    | push a l =>
        have hmove := (List.perm_append_singleton a l).trans (List.perm_orderedInsert (Before key) a l).symm
        change (events.filterMap Event.pushed ++ [a]).Perm (events.filterMap Event.popped ++ [] ++ _)
        rw [List.append_nil]
        refine (h.conserved.append_right [a]).trans ?_
        rw [List.append_assoc]
        exact hmove.append_left _
    | pop a l =>
        change (events.filterMap Event.pushed ++ []).Perm (events.filterMap Event.popped ++ [a] ++ _)
        rw [List.append_nil, List.append_assoc]
        exact h.conserved
  · refine (forall_split_concat (P := fun events e => ∀ a ∈ e.popped, Next key events a) events e).2
      ⟨h.next, ?_⟩
    cases hstep with
    | push a l => exact fun b hb => absurd hb (by simp [Event.popped])
    | pop a l =>
        intro b hb
        obtain rfl : a = b := Option.some.inj hb
        constructor
        · rw [← h.ofKey, ofKey_cons, if_pos rfl]
          rfl
        · exact fun k hk => (h.ofKey k).symm.trans (ofKey_of_lt h.sorted hk)

theorem waiting_of_trace {events : List (Event α)} (h : Trace (Step key) [] events l) :
    Waiting key events l := by
  induction h with
  | nil => exact Waiting.nil
  | snoc _ hstep ih => exact ih.step hstep

end PriorityStacks
