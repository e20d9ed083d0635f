import OscKernel.LinkedList

/-!
# Queues over pointer fields

The walks of an intrusive queue: to the last cell, to a cell that has a property, and to the cell before a
given one. A walk counts its rounds and gives up after `fuel` of them, so that a list with a cycle has
no result. On a chain every walk ends, and the queue operations append and remove.
-/

namespace Linked

variable {α : Type*} [DecidableEq α] {next : α → Option α} {h : Option α} {l l₁ l₂ : List α} {a b : α}
  {fuel : ℕ} {prev : Option α}

def last (next : α → Option α) : ℕ → α → Option α
  | 0, _ => none
  | fuel + 1, a =>
      match next a with
      | none => some a
      | some b => last next fuel b

def find (next : α → Option α) (p : α → Bool) : ℕ → Option α → Option (Option α)
  | _, none => some none
  | 0, some _ => none
  | fuel + 1, some a => if p a then some (some a) else find next p fuel (next a)

/-- The cell before `a`, when `a` is in the list: `prev` is the one before the first cell. -/
def before (next : α → Option α) (a : α) : ℕ → Option α → Option α → Option (Option (Option α))
  | _, _, none => some none
  | 0, _, some _ => none
  | fuel + 1, prev, some b => if b = a then some (some prev) else before next a fuel (some b) (next b)

omit [DecidableEq α] in
theorem last_chain (hc : Chain next (some a) (l ++ [b])) (hfuel : l.length < fuel) :
    last next fuel a = some b := by
  induction l generalizing a fuel with
  | nil =>
      obtain ⟨fuel, rfl⟩ : ∃ n, fuel = n + 1 := ⟨fuel - 1, by omega⟩
      have hab : a = b := Option.some.inj hc.1
      have hnull : next b = none := hc.2
      rw [last, hab, hnull]
  | cons c l ih =>
      obtain ⟨fuel, rfl⟩ : ∃ n, fuel = n + 1 := ⟨fuel - 1, by omega⟩
      have hac : a = c := Option.some.inj hc.1
      subst hac
      obtain ⟨d, hd⟩ : ∃ d, next a = some d := by
        cases l with
        | nil => exact ⟨b, hc.2.1⟩
        | cons e l => exact ⟨e, hc.2.1⟩
      have hrest : Chain next (some d) (l ++ [b]) := hd ▸ hc.2
      rw [last, hd]
      exact ih hrest (by simpa using hfuel)

omit [DecidableEq α] in
theorem find_chain (hc : Chain next h l) (p : α → Bool) (hfuel : l.length ≤ fuel) :
    find next p fuel h = some (l.find? p) := by
  induction l generalizing h fuel with
  | nil =>
      rw [show h = none from hc]
      cases fuel <;> rfl
  | cons c l ih =>
      obtain ⟨fuel, rfl⟩ : ∃ n, fuel = n + 1 := ⟨fuel - 1, by simp at hfuel; omega⟩
      rw [hc.1, find, List.find?_cons]
      cases hp : p c with
      | true => rfl
      | false => exact ih hc.2 (by simpa using hfuel)

theorem before_absent (hc : Chain next h l) (ha : a ∉ l) (hfuel : l.length ≤ fuel) :
    before next a fuel prev h = some none := by
  induction l generalizing h fuel prev with
  | nil =>
      rw [show h = none from hc]
      cases fuel <;> rfl
  | cons c l ih =>
      obtain ⟨fuel, rfl⟩ : ∃ n, fuel = n + 1 := ⟨fuel - 1, by simp at hfuel; omega⟩
      obtain ⟨hca, hal⟩ := not_or.1 fun hmem => ha (List.mem_cons.2 hmem)
      rw [hc.1, before, if_neg (Ne.symm hca)]
      exact ih hc.2 hal (by simpa using hfuel)

theorem before_head (hfuel : 0 < fuel) : before next a fuel prev (some a) = some (some prev) := by
  obtain ⟨fuel, rfl⟩ : ∃ n, fuel = n + 1 := ⟨fuel - 1, by omega⟩
  rw [before, if_pos rfl]

theorem before_inner (hc : Chain next h (l₁ ++ b :: a :: l₂)) (hfuel : l₁.length + 2 ≤ fuel) :
    before next a fuel prev h = some (some (some b)) := by
  induction l₁ generalizing h fuel prev with
  | nil =>
      obtain ⟨fuel, rfl⟩ : ∃ n, fuel = n + 1 := ⟨fuel - 1, by omega⟩
      have hba : b ≠ a := by
        rintro rfl
        exact (List.nodup_cons.1 hc.nodup).1 List.mem_cons_self
      rw [hc.1, before, if_neg hba, hc.2.1]
      exact before_head (by simp at hfuel; omega)
  | cons c l₁ ih =>
      obtain ⟨fuel, rfl⟩ : ∃ n, fuel = n + 1 := ⟨fuel - 1, by omega⟩
      have hca : c ≠ a := by
        rintro rfl
        exact (List.nodup_cons.1 hc.nodup).1 (by simp)
      rw [hc.1, before, if_neg hca]
      exact ih hc.2 (by simpa using hfuel)

/-- A new cell behind the last one. -/
theorem Chain.append (hc : Chain next h (l ++ [b])) (ha : a ∉ l ++ [b]) :
    Chain (Function.update (Function.update next b (some a)) a none) h (l ++ [b] ++ [a]) := by
  have hne : ∀ c ∈ l ++ [b], c ≠ a := by
    rintro c hmem rfl
    exact ha hmem
  refine hc.append_last ha ?_ (Function.update_self ..) fun c hmem => ?_
  · rw [Function.update_of_ne (hne b (by simp)), Function.update_self]
  · have hcb : c ≠ b := by
      rintro rfl
      exact (List.nodup_append.1 hc.nodup).2.2 c hmem c (by simp) rfl
    rw [Function.update_of_ne (hne c (by simp [hmem])), Function.update_of_ne hcb]

/-- The first cell of a queue that was empty. -/
theorem Chain.single (next : α → Option α) (a : α) : Chain (Function.update next a none) (some a) [a] :=
  ⟨rfl, Function.update_self ..⟩

/-- The cell behind `b` is bypassed. -/
theorem Chain.bypass (hc : Chain next h (l₁ ++ b :: a :: l₂)) :
    Chain (Function.update next b (next a)) h (l₁ ++ b :: l₂) := by
  induction l₁ generalizing h with
  | nil =>
      refine ⟨hc.1, ?_⟩
      rw [Function.update_self]
      refine hc.2.2.congr fun c hmem => Function.update_of_ne ?_ _ _
      rintro rfl
      exact (List.nodup_cons.1 hc.nodup).1 (List.mem_cons_of_mem _ hmem)
  | cons c l₁ ih =>
      have hcb : c ≠ b := by
        rintro rfl
        exact (List.nodup_cons.1 hc.nodup).1 (by simp)
      refine ⟨hc.1, ?_⟩
      rw [Function.update_of_ne hcb]
      exact ih hc.2

end Linked
