import Mathlib.Data.List.Nodup
import Mathlib.Tactic.Common

/-!
# Intrusive linked lists over pointer fields

`Chain next h l` says that following `next` from the head pointer `h` visits exactly the cells
`l` and then meets a null pointer. `DChain next prev p h l` says the same of a doubly linked list
whose first cell points back to `p`. The pointer fields are functions on cells, so an update of a
record is an update of one value of `next` or `prev`.

A chain is determined by its head, hence has no repeated cell. The two operations of an intrusive
list, pushing a cell at the front and unlinking a cell through its neighbours, are stated for any
new fields that agree with the old ones in the places the code does not write.
-/

namespace Linked

variable {α : Type*}

def Chain (next : α → Option α) : Option α → List α → Prop
  | h, [] => h = none
  | h, a :: l => h = some a ∧ Chain next (next a) l

def DChain (next prev : α → Option α) : Option α → Option α → List α → Prop
  | _, h, [] => h = none
  | p, h, a :: l => h = some a ∧ prev a = p ∧ DChain next prev (some a) (next a) l

variable {next prev next' prev' : α → Option α} {p h : Option α} {l : List α} {a b : α}

theorem DChain.chain (hc : DChain next prev p h l) : Chain next h l := by
  induction l generalizing p h with
  | nil => exact hc
  | cons c l ih => exact ⟨hc.1, ih hc.2.2⟩

theorem Chain.unique {l₁ l₂ : List α} (h₁ : Chain next h l₁) (h₂ : Chain next h l₂) : l₁ = l₂ := by
  induction l₁ generalizing h l₂ with
  | nil =>
      cases l₂ with
      | nil => rfl
      | cons b l₂ => exact absurd (h₁.symm.trans h₂.1) (by simp)
  | cons a l₁ ih =>
      cases l₂ with
      | nil => exact absurd (h₁.1.symm.trans h₂) (by simp)
      | cons b l₂ =>
          have hab : a = b := Option.some.inj (h₁.1.symm.trans h₂.1)
          subst hab
          rw [ih h₁.2 h₂.2]

/-- From any visited cell the chain goes on to the end of the list. -/
theorem Chain.suffix {l₁ l₂ : List α} (hc : Chain next h (l₁ ++ a :: l₂)) :
    Chain next (some a) (a :: l₂) := by
  induction l₁ generalizing h with
  | nil => exact ⟨rfl, hc.2⟩
  | cons b l₁ ih => exact ih hc.2

theorem Chain.nodup (hc : Chain next h l) : l.Nodup := by
  induction l generalizing h with
  | nil => exact List.nodup_nil
  | cons a l ih =>
      refine List.nodup_cons.2 ⟨?_, ih hc.2⟩
      intro ha
      obtain ⟨l₁, l₂, rfl⟩ := List.append_of_mem ha
      have hlong : Chain next (some a) (a :: (l₁ ++ a :: l₂)) := ⟨rfl, hc.2⟩
      have hshort : Chain next (some a) (a :: l₂) := hc.2.suffix
      have hlen := congrArg List.length (hlong.unique hshort)
      simp only [List.length_cons, List.length_append] at hlen
      omega

theorem Chain.congr (hc : Chain next h l) (hn : ∀ b ∈ l, next' b = next b) : Chain next' h l := by
  induction l generalizing h with
  | nil => exact hc
  | cons a l ih =>
      refine ⟨hc.1, ?_⟩
      rw [hn a List.mem_cons_self]
      exact ih hc.2 (fun b hb => hn b (List.mem_cons_of_mem a hb))

theorem DChain.congr (hc : DChain next prev p h l) (hn : ∀ b ∈ l, next' b = next b)
    (hp : ∀ b ∈ l, prev' b = prev b) : DChain next' prev' p h l := by
  induction l generalizing p h with
  | nil => exact hc
  | cons a l ih =>
      refine ⟨hc.1, (hp a List.mem_cons_self).trans hc.2.1, ?_⟩
      rw [hn a List.mem_cons_self]
      exact ih hc.2.2 (fun b hb => hn b (List.mem_cons_of_mem a hb))
        (fun b hb => hp b (List.mem_cons_of_mem a hb))

theorem Chain.head_mem (hc : Chain next (some a) l) : a ∈ l := by
  cases l with
  | nil => exact absurd hc (by simp [Chain])
  | cons b l => rw [Option.some.inj hc.1]; exact List.mem_cons_self

theorem Chain.next_mem (hc : Chain next h l) (hb : b ∈ l) (hn : next b = some a) : a ∈ l := by
  induction l generalizing h with
  | nil => exact absurd hb List.not_mem_nil
  | cons c l ih =>
      rcases List.mem_cons.1 hb with rfl | hb
      · have hrest := hc.2
        rw [hn] at hrest
        exact List.mem_cons_of_mem _ hrest.head_mem
      · exact List.mem_cons_of_mem _ (ih hc.2 hb)

/-- The first cell is never the successor of a visited cell. -/
theorem Chain.next_ne_head (hc : Chain next (some a) l) (hb : b ∈ l) : next b ≠ some a := by
  cases l with
  | nil => exact absurd hb List.not_mem_nil
  | cons c l =>
      intro hn
      have hac : a = c := Option.some.inj hc.1
      subst hac
      have hnodup := Chain.nodup hc
      rcases List.mem_cons.1 hb with rfl | hb
      · have hrest := hc.2
        rw [hn] at hrest
        exact (List.nodup_cons.1 hnodup).1 hrest.head_mem
      · exact (List.nodup_cons.1 hnodup).1 (hc.2.next_mem hb hn)

theorem Chain.next_ne_self (hc : Chain next h l) (ha : a ∈ l) : next a ≠ some a := by
  obtain ⟨l₁, l₂, rfl⟩ := List.append_of_mem ha
  exact hc.suffix.next_ne_head List.mem_cons_self

/-- Appending a cell behind the last one, as a singly linked queue does. -/
theorem Chain.append_last (hc : Chain next h (l ++ [b])) (ha : a ∉ l ++ [b])
    (hlast : next' b = some a) (hnull : next' a = none)
    (hn : ∀ c ∈ l, next' c = next c) : Chain next' h (l ++ [b] ++ [a]) := by
  induction l generalizing h with
  | nil => exact ⟨hc.1, hlast, hnull⟩
  | cons c l ih =>
      refine ⟨hc.1, ?_⟩
      rw [hn c List.mem_cons_self]
      exact ih hc.2 (fun hmem => ha (List.mem_cons_of_mem c hmem))
        (fun d hd => hn d (List.mem_cons_of_mem c hd))

/-- Linking a new cell behind a visited one. -/
theorem Chain.insert_after {l₁ l₂ : List α} (hc : Chain next h (l₁ ++ b :: l₂))
    (hb : next' b = some a) (ha : next' a = next b) (hn : ∀ c ∈ l₁ ++ l₂, next' c = next c) :
    Chain next' h (l₁ ++ b :: a :: l₂) := by
  induction l₁ generalizing h with
  | nil =>
      refine ⟨hc.1, hb, ?_⟩
      rw [ha]
      exact hc.2.congr hn
  | cons c l₁ ih =>
      refine ⟨hc.1, ?_⟩
      rw [hn c List.mem_cons_self]
      exact ih hc.2 fun d hd => hn d (List.mem_cons_of_mem c hd)

/-- A visited cell is the head, or its `prev` names the visited cell whose `next` leads to it. -/
theorem DChain.prev_cases (hc : DChain next prev p h l) (ha : a ∈ l) :
    (h = some a ∧ prev a = p) ∨ ∃ e ∈ l, prev a = some e ∧ next e = some a := by
  induction l generalizing p h with
  | nil => exact absurd ha List.not_mem_nil
  | cons c l ih =>
      rcases List.mem_cons.1 ha with rfl | ha
      · exact Or.inl ⟨hc.1, hc.2.1⟩
      · apply Or.inr
        rcases ih hc.2.2 ha with ⟨hn, hp⟩ | ⟨e, he, hp, hn⟩
        · exact ⟨c, List.mem_cons_self, hp, hn⟩
        · exact ⟨e, List.mem_cons_of_mem c he, hp, hn⟩

/-- No visited cell points back to itself. -/
theorem DChain.prev_ne_self (hc : DChain next prev none h l) (ha : a ∈ l) : prev a ≠ some a := by
  intro hp
  rcases hc.prev_cases ha with ⟨-, hnone⟩ | ⟨e, -, hpe, hn⟩
  · exact absurd (hnone.symm.trans hp) (by simp)
  · obtain rfl := Option.some.inj (hpe.symm.trans hp)
    exact hc.chain.next_ne_self ha hn

theorem DChain.prev_of_next (hc : DChain next prev p h l) (hb : b ∈ l) (hn : next b = some a) :
    prev a = some b := by
  induction l generalizing p h with
  | nil => exact absurd hb List.not_mem_nil
  | cons c l ih =>
      rcases List.mem_cons.1 hb with rfl | hb
      · have hrest := hc.2.2
        rw [hn] at hrest
        cases l with
        | nil => exact absurd hrest (by simp [DChain])
        | cons d l => rw [Option.some.inj hrest.1]; exact hrest.2.1
      · exact ih hc.2.2 hb

theorem DChain.next_eq_iff (hc : DChain next prev p h l) (ha : a ∈ l) (hb : b ∈ l) :
    next b = some a ↔ h ≠ some a ∧ prev a = some b := by
  constructor
  · intro hn
    refine ⟨fun hh => ?_, hc.prev_of_next hb hn⟩
    subst hh
    exact hc.chain.next_ne_head hb hn
  · rintro ⟨hh, hp⟩
    rcases hc.prev_cases ha with ⟨hh', -⟩ | ⟨e, -, hpe, hn⟩
    · exact absurd hh' hh
    · rwa [← Option.some.inj (hpe.symm.trans hp)]

section Updates

variable [DecidableEq α]

/-- Pushing a fresh cell in front: the old head, if any, points back to it. -/
theorem DChain.push (hc : DChain next prev none h l) (ha : a ∉ l)
    (hna : next' a = h) (hpa : prev' a = none) (hn : ∀ b ∈ l, next' b = next b)
    (hp : ∀ b ∈ l, prev' b = if h = some b then some a else prev b) :
    DChain next' prev' none (some a) (a :: l) := by
  refine ⟨rfl, hpa, ?_⟩
  rw [hna]
  cases l with
  | nil => exact hc
  | cons b l =>
      obtain ⟨rfl, hpb, hrest⟩ := hc
      have hnodup := List.nodup_cons.1 (Chain.nodup (⟨rfl, hrest.chain⟩ : Chain next (some b) (b :: l)))
      refine ⟨rfl, (hp b List.mem_cons_self).trans (if_pos rfl), ?_⟩
      rw [hn b List.mem_cons_self]
      apply hrest.congr (fun c hcl => hn c (List.mem_cons_of_mem b hcl))
      intro c hcl
      rw [hp c (List.mem_cons_of_mem b hcl), if_neg]
      intro he
      exact hnodup.1 (Option.some.inj he ▸ hcl)

/-- Bypassing the cell `a` that stands before a list: only its first cell points back to `a`. -/
theorem DChain.relink (hc : DChain next prev (some a) h l) (ha : a ∉ l)
    (hn : ∀ b ∈ l, next' b = if next b = some a then next a else next b)
    (hp : ∀ b ∈ l, prev' b = if prev b = some a then p else prev b) :
    DChain next' prev' p h l := by
  have hnext : ∀ b ∈ l, next' b = next b := by
    intro b hb
    rw [hn b hb, if_neg]
    exact fun he => ha (hc.chain.next_mem hb he)
  cases l with
  | nil => exact hc
  | cons b l =>
      have hnodup := List.nodup_cons.1 hc.chain.nodup
      obtain ⟨rfl, hpb, hrest⟩ := hc
      refine ⟨rfl, (hp b List.mem_cons_self).trans (if_pos hpb), ?_⟩
      rw [hnext b List.mem_cons_self]
      apply hrest.congr (fun c hcl => hnext c (List.mem_cons_of_mem b hcl))
      intro c hcl
      rw [hp c (List.mem_cons_of_mem b hcl), if_neg]
      intro he
      rcases hrest.prev_cases hcl with ⟨-, hpc⟩ | ⟨e, hel, hpe, -⟩
      · exact ha (Option.some.inj (hpc.symm.trans he) ▸ List.mem_cons_self)
      · exact ha (Option.some.inj (hpe.symm.trans he) ▸ List.mem_cons_of_mem b hel)

/-- Unlinking a cell through its neighbours. The fields of the unlinked cell itself are free. -/
theorem DChain.erase (hc : DChain next prev p h l) (ha : a ∈ l) (hpa : p ≠ some a)
    (hn : ∀ b ∈ l, b ≠ a → next' b = if next b = some a then next a else next b)
    (hp : ∀ b ∈ l, b ≠ a → prev' b = if prev b = some a then prev a else prev b) :
    DChain next' prev' p (if h = some a then next a else h) (l.erase a) := by
  induction l generalizing p h with
  | nil => exact absurd ha List.not_mem_nil
  | cons c l ih =>
      have hnodup := List.nodup_cons.1 hc.chain.nodup
      obtain ⟨rfl, hpc, hrest⟩ := hc
      by_cases hca : c = a
      · subst hca
        rw [if_pos rfl, List.erase_cons_head]
        have hne : ∀ b ∈ l, b ≠ c := fun b hb he => hnodup.1 (he ▸ hb)
        apply hrest.relink hnodup.1
        · exact fun b hb => hn b (List.mem_cons_of_mem c hb) (hne b hb)
        · intro b hb
          rw [hp b (List.mem_cons_of_mem c hb) (hne b hb), hpc]
      · have hal : a ∈ l := by simpa [Ne.symm hca] using ha
        have hcs : some c ≠ some a := fun he => hca (Option.some.inj he)
        rw [if_neg hcs, List.erase_cons_tail (by simpa using hca)]
        refine ⟨rfl, ?_, ?_⟩
        · rw [hp c List.mem_cons_self hca, hpc, if_neg hpa]
        · rw [hn c List.mem_cons_self hca]
          exact ih hrest hal hcs (fun b hb => hn b (List.mem_cons_of_mem c hb))
            (fun b hb => hp b (List.mem_cons_of_mem c hb))

end Updates

section Families

variable {n k : ℕ} {head head' : ℕ → Option α} {F F' : ℕ → α → Prop}

/-- The lists below `n` are well linked, list `k` holds exactly the cells that `F k` says, and no
cell is on two lists. -/
structure Lists (n : ℕ) (next prev : α → Option α) (head : ℕ → Option α) (F : ℕ → α → Prop) :
    Prop where
  linked : ∀ k < n, ∃ l, DChain next prev none (head k) l ∧ ∀ i, i ∈ l ↔ F k i
  once : ∀ k k' i, F k i → F k' i → k = k'

theorem Lists.congr (h : Lists n next prev head F) (hh : ∀ k < n, head' k = head k)
    (hn : ∀ k i, F k i → next' i = next i) (hp : ∀ k i, F k i → prev' i = prev i) :
    Lists n next' prev' head' F := by
  refine ⟨fun k hk => ?_, h.once⟩
  obtain ⟨l, hc, hl⟩ := h.linked k hk
  rw [hh k hk]
  exact ⟨l, hc.congr (fun i hi => hn k i ((hl i).1 hi)) (fun i hi => hp k i ((hl i).1 hi)), hl⟩

theorem Lists.iff (h : Lists n next prev head F) (hF : ∀ k i, F k i ↔ F' k i) :
    Lists n next prev head F' := by
  have heq : F = F' := funext fun k => funext fun i => propext (hF k i)
  exact heq ▸ h

theorem Lists.of_head (h : Lists n next prev head F) (hk : k < n) (hb : head k = some b) : F k b := by
  obtain ⟨l, hc, hl⟩ := h.linked k hk
  rw [hb] at hc
  exact (hl b).1 hc.chain.head_mem

theorem Lists.head_none (h : Lists n next prev head F) (hk : k < n) (hn : head k = none) :
    ¬ F k b := by
  obtain ⟨l, hc, hl⟩ := h.linked k hk
  rw [hn] at hc
  cases l with
  | nil => exact fun hF => List.not_mem_nil ((hl b).2 hF)
  | cons c l => exact absurd hc.1 (by simp)

variable [DecidableEq α]

/-- Pushing a fresh cell in front of list `k`. -/
theorem Lists.push (h : Lists n next prev head F) (hk : k < n) (hfresh : ∀ j, ¬ F j b)
    (hhead : ∀ j, head' j = if j = k then some b else head j)
    (hnb : next' b = head k) (hpb : prev' b = none) (hn : ∀ j i, F j i → next' i = next i)
    (hp : ∀ j i, F j i → prev' i = if head k = some i then some b else prev i)
    (hF' : ∀ j i, F' j i ↔ F j i ∨ (j = k ∧ i = b)) : Lists n next' prev' head' F' := by
  constructor
  · intro j hj
    obtain ⟨l, hc, hl⟩ := h.linked j hj
    have hbl : b ∉ l := fun hm => hfresh j ((hl b).1 hm)
    rw [hhead]
    by_cases hjk : j = k
    · subst hjk
      rw [if_pos rfl]
      refine ⟨b :: l, hc.push hbl hnb hpb ?_ ?_, ?_⟩
      · exact fun i hi => hn j i ((hl i).1 hi)
      · exact fun i hi => hp j i ((hl i).1 hi)
      · intro i
        rw [List.mem_cons, hl, hF']
        tauto
    · rw [if_neg hjk]
      refine ⟨l, hc.congr ?_ ?_, ?_⟩
      · exact fun i hi => hn j i ((hl i).1 hi)
      · intro i hi
        rw [hp j i ((hl i).1 hi), if_neg]
        intro hhead
        exact hjk (h.once j k i ((hl i).1 hi) (h.of_head hk hhead))
      · intro i
        rw [hl, hF']
        tauto
  · intro j j' i hi hi'
    rw [hF'] at hi hi'
    rcases hi with hi | ⟨hj, hib⟩ <;> rcases hi' with hi' | ⟨hj', hib'⟩
    · exact h.once j j' i hi hi'
    · exact absurd (hib' ▸ hi) (hfresh j)
    · exact absurd (hib ▸ hi') (hfresh j')
    · rw [hj, hj']

/-- Unlinking a cell of list `k`, through the head if it stands there and else through its
neighbours. -/
theorem Lists.unlink (h : Lists n next prev head F) (hk : k < n) (hb : F k b)
    (hhead : ∀ j, head' j =
      if j = k then (if head k = some b then next b else head k) else head j)
    (hn : ∀ j i, F j i → i ≠ b → next' i =
      if head k ≠ some b ∧ prev b = some i then next b else next i)
    (hp : ∀ j i, F j i → i ≠ b → prev' i =
      if next b = some i then (if head k = some b then none else prev b) else prev i)
    (hF' : ∀ j i, F' j i ↔ F j i ∧ i ≠ b) : Lists n next' prev' head' F' := by
  obtain ⟨l, hc, hl⟩ := h.linked k hk
  have hbl : b ∈ l := (hl b).2 hb
  have hnodup := hc.chain.nodup
  constructor
  · intro j hj
    rw [hhead]
    by_cases hjk : j = k
    · subst hjk
      rw [if_pos rfl]
      refine ⟨l.erase b, hc.erase hbl (by simp) ?_ ?_, ?_⟩
      · intro i hi hib
        rw [hn j i ((hl i).1 hi) hib]
        exact if_congr (hc.next_eq_iff hbl hi).symm rfl rfl
      · intro i hi hib
        rw [hp j i ((hl i).1 hi) hib]
        have hiff : next b = some i ↔ prev i = some b := by
          refine ⟨hc.prev_of_next hbl, fun hpi => ?_⟩
          rcases hc.prev_cases hi with ⟨-, hnone⟩ | ⟨e, -, hpe, hne⟩
          · exact absurd (hnone.symm.trans hpi) (by simp)
          · rwa [← Option.some.inj (hpe.symm.trans hpi)]
        refine if_congr hiff ?_ rfl
        split_ifs with hhd
        · rcases hc.prev_cases hbl with ⟨-, hnone⟩ | ⟨e, hel, -, hne⟩
          · exact hnone.symm
          · rw [hhd] at hc
            exact absurd hne (hc.chain.next_ne_head hel)
        · rfl
      · intro i
        rw [hnodup.mem_erase_iff, hl, hF', and_comm]
    · rw [if_neg hjk]
      obtain ⟨l', hc', hl'⟩ := h.linked j hj
      have hsep : ∀ i ∈ l', i ∉ l := fun i hi' hi =>
        hjk (h.once j k i ((hl' i).1 hi') ((hl i).1 hi))
      have hne : ∀ i ∈ l', i ≠ b := fun i hi he => hsep i hi (he ▸ hbl)
      refine ⟨l', hc'.congr ?_ ?_, ?_⟩
      · intro i hi
        rw [hn j i ((hl' i).1 hi) (hne i hi), if_neg]
        rintro ⟨hhd, hpb⟩
        rcases hc.prev_cases hbl with ⟨hh, -⟩ | ⟨e, hel, hpe, -⟩
        · exact hhd hh
        · exact hsep i hi (Option.some.inj (hpe.symm.trans hpb) ▸ hel)
      · intro i hi
        rw [hp j i ((hl' i).1 hi) (hne i hi), if_neg]
        intro hnb
        exact hsep i hi (hc.chain.next_mem hbl hnb)
      · intro i
        rw [hl', hF']
        refine ⟨fun hi => ⟨hi, ?_⟩, And.left⟩
        exact hne i ((hl' i).2 hi)
  · intro j j' i hi hi'
    exact h.once j j' i ((hF' j i).1 hi).1 ((hF' j' i).1 hi').1

end Families

end Linked
