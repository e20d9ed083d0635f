import Mathlib.Control.Basic
import Mathlib.Data.List.Basic
import Mathlib.Data.List.Induction
import Mathlib.Data.Set.Basic

/-!
# Lexical paths

A path is a list of moves from a root: stay, go up, or go down by a name. Where going up undoes going down,
a walk ends where the walk over the normal form of its path ends, which has only moves down and is worked out
from the text alone; and the normal form is the only path of that kind to its end.
-/

namespace LexicalPaths

variable {α ν ε : Type*}

inductive Move (ν : Type*) where
  | stay
  | up
  | down (name : ν)

/-- A move changes the end of a list of names from the root. -/
def Move.apply (names : List ν) : Move ν → List ν
  | .stay => names
  | .up => names.dropLast
  | .down name => names ++ [name]

def normal (moves : List (Move ν)) : List ν := moves.foldl Move.apply []

def downs (names : List ν) : List (Move ν) := names.map .down

theorem normal_concat (moves : List (Move ν)) (m : Move ν) :
    normal (moves ++ [m]) = m.apply (normal moves) := by
  rw [normal, List.foldl_append]
  rfl

theorem normal_ups (moves : List (Move ν)) (k : ℕ) :
    normal (moves ++ List.replicate k .up) = (normal moves).take ((normal moves).length - k) := by
  induction k with
  | zero => rw [List.replicate_zero, List.append_nil, Nat.sub_zero, List.take_length]
  | succ k ih =>
      rw [List.replicate_succ', ← List.append_assoc, normal_concat, ih]
      change List.dropLast _ = _
      rw [List.dropLast_eq_take, List.length_take, List.take_take]
      congr 1
      omega

/-- The names of a normal form are names of the path. -/
theorem mem_normal {moves : List (Move ν)} {name : ν} (h : name ∈ normal moves) :
    Move.down name ∈ moves := by
  induction moves using List.reverseRecOn with
  | nil => cases h
  | append_singleton moves m ih =>
      rw [normal_concat] at h
      cases m with
      | stay => exact List.mem_append_left _ (ih h)
      | up => exact List.mem_append_left _ (ih (List.dropLast_subset _ h))
      | down n =>
          rcases List.mem_append.1 h with h | h
          · exact List.mem_append_left _ (ih h)
          · rw [List.mem_singleton.1 h]
            exact List.mem_append_right _ (List.mem_singleton_self _)

variable {step : α → Move ν → Except ε α} {root a b : α} {S : Set α}

def walk (step : α → Move ν → Except ε α) (a : α) (moves : List (Move ν)) : Except ε α :=
  moves.foldlM step a

theorem walk_append (moves moves' : List (Move ν)) :
    walk step a (moves ++ moves') = (walk step a moves).bind fun b => walk step b moves' :=
  List.foldlM_append

theorem walk_concat (moves : List (Move ν)) (m : Move ν) :
    walk step a (moves ++ [m]) = (walk step a moves).bind fun b => step b m := by
  rw [walk_append]
  congr 1
  funext b
  change (step b m).bind Except.ok = _
  cases step b m with
  | error e => rfl
  | ok c => rfl

theorem walk_concat_ok {moves : List (Move ν)} {m : Move ν} :
    walk step a (moves ++ [m]) = .ok b ↔ ∃ c, walk step a moves = .ok c ∧ step c m = .ok b := by
  rw [walk_concat]
  cases walk step a moves with
  | error e =>
      constructor
      · intro h
        cases h
      · rintro ⟨c, hc, -⟩
        cases hc
  | ok c =>
      constructor
      · exact fun h => ⟨c, rfl, h⟩
      · rintro ⟨d, hd, h⟩
        rw [Except.ok.inj hd]
        exact h

theorem walk_downs_concat {names : List ν} {n : ν} :
    walk step a (downs (names ++ [n])) = .ok b ↔
      ∃ c, walk step a (downs names) = .ok c ∧ step c (.down n) = .ok b := by
  rw [downs, List.map_append, List.map_singleton]
  exact walk_concat_ok

/-- The places of `S` are a tree whose branches have names: going up undoes going down, and nothing is
above the root. -/
structure NamedTree (step : α → Move ν → Except ε α) (root : α) (S : Set α) : Prop where
  root_mem : root ∈ S
  mem : ∀ a ∈ S, ∀ m b, step a m = .ok b → b ∈ S
  stay : ∀ a, step a .stay = .ok a
  top : step root .up = .ok root
  up_down : ∀ a ∈ S, ∀ n b, step a (.down n) = .ok b → step b .up = .ok a ∧ b ≠ root
  name : ∀ a ∈ S, ∀ n n' b, step a (.down n) = .ok b → step a (.down n') = .ok b → n = n'

namespace NamedTree

theorem walk_mem (h : NamedTree step root S) {moves : List (Move ν)} (hwalk : walk step root moves = .ok b) :
    b ∈ S := by
  induction moves using List.reverseRecOn generalizing b with
  | nil =>
      rw [← Except.ok.inj hwalk]
      exact h.root_mem
  | append_singleton moves m ih =>
      obtain ⟨c, hc, hstep⟩ := walk_concat_ok.1 hwalk
      exact h.mem c (ih hc) m b hstep

/-- What a move does to the names of a place. -/
theorem walk_apply (h : NamedTree step root S) {names : List ν} {m : Move ν}
    (hwalk : walk step root (downs names) = .ok a) (hstep : step a m = .ok b) :
    walk step root (downs (m.apply names)) = .ok b := by
  cases m with
  | stay =>
      rw [h.stay] at hstep
      rw [← Except.ok.inj hstep]
      exact hwalk
  | down n =>
      exact walk_downs_concat.2 ⟨a, hwalk, hstep⟩
  | up =>
      rcases List.eq_nil_or_concat' names with rfl | ⟨init, last, rfl⟩
      · rw [← Except.ok.inj hwalk, h.top] at hstep
        exact hstep
      · obtain ⟨c, hc, hdown⟩ := walk_downs_concat.1 hwalk
        rw [(h.up_down c (h.walk_mem hc) last a hdown).1] at hstep
        rw [Move.apply, List.dropLast_concat, ← Except.ok.inj hstep]
        exact hc

theorem walk_normal (h : NamedTree step root S) {moves : List (Move ν)}
    (hwalk : walk step root moves = .ok b) : walk step root (downs (normal moves)) = .ok b := by
  induction moves using List.reverseRecOn generalizing b with
  | nil => exact hwalk
  | append_singleton moves m ih =>
      obtain ⟨c, hc, hstep⟩ := walk_concat_ok.1 hwalk
      rw [normal_concat]
      exact h.walk_apply (ih hc) hstep

theorem walk_down_ne_root (h : NamedTree step root S) {names : List ν} {n : ν}
    (hwalk : walk step root (downs (names ++ [n])) = .ok b) : b ≠ root := by
  obtain ⟨c, hc, hdown⟩ := walk_downs_concat.1 hwalk
  exact (h.up_down c (h.walk_mem hc) n b hdown).2

/-- A place has one list of names. -/
theorem walk_unique (h : NamedTree step root S) {names names' : List ν}
    (hwalk : walk step root (downs names) = .ok b) (hwalk' : walk step root (downs names') = .ok b) :
    names = names' := by
  induction names using List.reverseRecOn generalizing names' b with
  | nil =>
      rcases List.eq_nil_or_concat' names' with rfl | ⟨init', last', rfl⟩
      · rfl
      · exact absurd (Except.ok.inj hwalk).symm (h.walk_down_ne_root hwalk')
  | append_singleton init last ih =>
      rcases List.eq_nil_or_concat' names' with rfl | ⟨init', last', rfl⟩
      · exact absurd (Except.ok.inj hwalk').symm (h.walk_down_ne_root hwalk)
      · obtain ⟨c, hc, hdown⟩ := walk_downs_concat.1 hwalk
        obtain ⟨c', hc', hdown'⟩ := walk_downs_concat.1 hwalk'
        have hup := (h.up_down c (h.walk_mem hc) last b hdown).1
        have hup' := (h.up_down c' (h.walk_mem hc') last' b hdown').1
        have hcc : c = c' := Except.ok.inj (hup.symm.trans hup')
        subst hcc
        rw [ih hc hc', h.name c (h.walk_mem hc) last last' b hdown hdown']

/-- Two paths that end somewhere end at the same place exactly if they have the same normal form. -/
theorem walk_same_iff (h : NamedTree step root S) {moves moves' : List (Move ν)} {b' : α}
    (hwalk : walk step root moves = .ok b) (hwalk' : walk step root moves' = .ok b') :
    b = b' ↔ normal moves = normal moves' := by
  have hn := h.walk_normal hwalk
  have hn' := h.walk_normal hwalk'
  constructor
  · rintro rfl
    exact h.walk_unique hn hn'
  · intro heq
    rw [heq] at hn
    exact Except.ok.inj (hn.symm.trans hn')

/-- Nobody falls off the tree by going up. -/
theorem walk_ups (h : NamedTree step root S) {moves : List (Move ν)} (hwalk : walk step root moves = .ok b)
    (k : ℕ) : ∃ c, walk step root (moves ++ List.replicate k .up) = .ok c := by
  induction k with
  | zero => exact ⟨b, by rwa [List.replicate_zero, List.append_nil]⟩
  | succ k ih =>
      obtain ⟨c, hc⟩ := ih
      have hn := h.walk_normal hc
      have hup : ∃ d, step c .up = .ok d := by
        rcases List.eq_nil_or_concat' (normal (moves ++ List.replicate k .up)) with hnil | ⟨init, last, hl⟩
        · rw [hnil] at hn
          rw [← Except.ok.inj hn]
          exact ⟨root, h.top⟩
        · rw [hl] at hn
          obtain ⟨d, hd, hdown⟩ := walk_downs_concat.1 hn
          exact ⟨d, (h.up_down d (h.walk_mem hd) last c hdown).1⟩
      obtain ⟨d, hd⟩ := hup
      refine ⟨d, ?_⟩
      rw [List.replicate_succ', ← List.append_assoc, walk_concat_ok]
      exact ⟨c, hc, hd⟩

end NamedTree

end LexicalPaths
