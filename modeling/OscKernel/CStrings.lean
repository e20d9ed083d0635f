import OscKernel.ByteMemory
import Mathlib.Data.List.TakeWhile

/-!
# Strings in a byte memory

A string is a list of bytes without `0`, held in a memory with a `0` behind it. `scan` is the loop that
moves a pointer over the bytes that satisfy a condition. `tokens` are the nonempty pieces between
separators, which a loop of two scans finds one after the other.
-/

namespace CStrings

variable {m m' : ByteMem} {a n : ℕ} {s t : List UInt8} {p : UInt8 → Bool} {c : UInt8}

def scan (m : ByteMem) (p : UInt8 → Bool) : ℕ → ℕ → ℕ
  | 0, a => a
  | n + 1, a => if p (m a) then scan m p n (a + 1) else a

def str (m : ByteMem) (n a : ℕ) : List UInt8 := ByteMem.read m a (scan m (· ≠ 0) n a - a)

def Holds (m : ByteMem) (a : ℕ) (s : List UInt8) : Prop :=
  (0 : UInt8) ∉ s ∧ ByteMem.read m a (s.length + 1) = s ++ [0]

theorem holds_nil : Holds m a [] ↔ m a = 0 := by
  simp [Holds, ByteMem.read]

theorem holds_cons : Holds m a (c :: s) ↔ c ≠ 0 ∧ m a = c ∧ Holds m (a + 1) s := by
  have hread : ByteMem.read m a ((c :: s).length + 1) = m a :: ByteMem.read m (a + 1) (s.length + 1) := by
    rw [List.length_cons, Nat.add_comm, ByteMem.read_append]
    rfl
  rw [Holds, Holds, hread, List.cons_append, List.cons.injEq, List.mem_cons]
  constructor
  · rintro ⟨hmem, ha, hs⟩
    exact ⟨fun h => hmem (Or.inl h.symm), ha, fun h => hmem (Or.inr h), hs⟩
  · rintro ⟨hc, ha, hmem, hs⟩
    exact ⟨fun h => h.elim (fun h => hc h.symm) hmem, ha, hs⟩

theorem holds_write (h : (0 : UInt8) ∉ s) : Holds (ByteMem.write m a (s ++ [0])) a s := by
  refine ⟨h, ?_⟩
  have hread := ByteMem.read_write_same m a (s ++ [0])
  rwa [List.length_append, List.length_singleton] at hread

theorem Holds.right (h : Holds m a (s ++ t)) : Holds m (a + s.length) t := by
  induction s generalizing a with
  | nil => exact h
  | cons b s ih =>
      rw [List.length_cons, ← Nat.add_assoc, Nat.add_right_comm]
      exact ih (holds_cons.1 h).2.2

theorem Holds.congr_range (h : Holds m a s) (hm : ∀ x, a ≤ x → x ≤ a + s.length → m' x = m x) :
    Holds m' a s := by
  refine ⟨h.1, ?_⟩
  rw [ByteMem.read_congr _ _ fun x hlo hhi => hm x hlo (Nat.le_of_lt_succ hhi)]
  exact h.2

theorem Holds.congr (h : Holds m a s) (hm : ∀ x, a ≤ x → m' x = m x) : Holds m' a s :=
  h.congr_range fun x hlo _ => hm x hlo

/-- Overwriting a byte of a string by `0` leaves the string before it and the string behind it. -/
theorem Holds.cut (h : Holds m a (s ++ c :: t)) :
    Holds (Function.update m (a + s.length) 0) a s ∧
      Holds (Function.update m (a + s.length) 0) (a + s.length + 1) t := by
  constructor
  · induction s generalizing a with
    | nil => exact holds_nil.2 (Function.update_self ..)
    | cons b s ih =>
        obtain ⟨hb, ha, hs⟩ := holds_cons.1 h
        have hlen : a + (b :: s).length = a + 1 + s.length := by rw [List.length_cons]; omega
        rw [hlen]
        refine holds_cons.2 ⟨hb, ?_, ih hs⟩
        rwa [Function.update_of_ne (by omega)]
  · refine (holds_cons.1 h.right).2.2.congr fun x hx => ?_
    exact Function.update_of_ne (by omega) _ _

theorem scan_holds (hp : p 0 = false) (h : Holds m a s) (hn : s.length ≤ n) :
    scan m p n a = a + (s.takeWhile p).length := by
  induction s generalizing a n with
  | nil =>
      have hend : p (m a) = false := by rw [holds_nil.1 h, hp]
      cases n with
      | zero => rfl
      | succ n => simp [scan, hend]
  | cons b s ih =>
      obtain ⟨-, ha, hs⟩ := holds_cons.1 h
      obtain ⟨k, rfl⟩ : ∃ k, n = k + 1 := Nat.exists_eq_add_one_of_ne_zero (by
        rw [List.length_cons] at hn
        omega)
      rw [scan, ha]
      by_cases hb : p b
      · rw [if_pos hb, ih hs (by simpa using hn), List.takeWhile_cons_of_pos hb, List.length_cons]
        omega
      · rw [if_neg hb, List.takeWhile_cons_of_neg hb]
        rfl

theorem str_holds (h : Holds m a s) (hn : s.length ≤ n) : str m n a = s := by
  have hall : s.takeWhile (fun b => decide (b ≠ 0)) = s :=
    List.takeWhile_eq_self_iff.2 fun b hb => by
      have : b ≠ 0 := fun h0 => h.1 (h0 ▸ hb)
      simpa using this
  have hread := ByteMem.take_read m a (s.length + 1) s.length (Nat.le_succ _)
  rw [str, scan_holds (by decide) h hn, hall, Nat.add_sub_cancel_left, ← hread, h.2,
    List.take_left' rfl]

/-- A memory holds one string at an address. -/
theorem Holds.unique (hs : Holds m a s) (ht : Holds m a t) : s = t :=
  (str_holds hs (Nat.le_max_left _ t.length)).symm.trans (str_holds ht (Nat.le_max_right s.length _))

/-- A string with a NUL somewhere behind its start. -/
theorem exists_holds {b : ℕ} (hab : a ≤ b) (hb : m b = 0) : ∃ w, Holds m a w ∧ a + w.length ≤ b := by
  induction hn : b - a generalizing a with
  | zero =>
      obtain rfl : a = b := by omega
      exact ⟨[], holds_nil.2 hb, le_rfl⟩
  | succ n ih =>
      by_cases ha : m a = 0
      · exact ⟨[], holds_nil.2 ha, hab⟩
      · obtain ⟨w, hw, hle⟩ := ih (by omega : a + 1 ≤ b) (by omega)
        refine ⟨m a :: w, holds_cons.2 ⟨ha, rfl, hw⟩, ?_⟩
        rw [List.length_cons]
        omega

def tokens (c : UInt8) (l : List UInt8) : List (List UInt8) := (l.splitOn c).filter (· ≠ [])

theorem tokens_append (s t : List UInt8) : tokens c (s ++ c :: t) = tokens c s ++ tokens c t := by
  rw [tokens, List.splitOn_append_cons_self, List.filter_append]
  rfl

theorem tokens_sep : tokens c (c :: s) = tokens c s := tokens_append [] s

theorem tokens_of_not_mem (h : c ∉ s) (hs : s ≠ []) : tokens c s = [s] := by
  rw [tokens, List.splitOn_eq_singleton h]
  simpa using hs

theorem tokens_dropWhile (s : List UInt8) : tokens c (s.dropWhile (· = c)) = tokens c s := by
  induction s with
  | nil => rfl
  | cons b s ih =>
      by_cases hb : b = c
      · subst hb
        rw [List.dropWhile_cons_of_pos (by simp), ih, tokens_sep]
      · rw [List.dropWhile_cons_of_neg (by simpa using hb)]

/-- A string that does not begin with the separator is a token, alone or before a separator. -/
theorem split_token (s : List UInt8) :
    c ∉ s ∨ ∃ name t, c ∉ name ∧ s = name ++ c :: t := by
  by_cases hc : c ∈ s
  · obtain ⟨name, t, rfl, hname⟩ := List.eq_append_cons_of_mem hc
    exact Or.inr ⟨name, t, hname, rfl⟩
  · exact Or.inl hc

/-- A token is a nonempty piece of the string without a separator. -/
theorem mem_tokens (h : t ∈ tokens c s) : t ≠ [] ∧ c ∉ t ∧ ∀ b ∈ t, b ∈ s := by
  induction hn : s.length using Nat.strong_induction_on generalizing s with
  | _ n ih =>
      subst hn
      rcases split_token (c := c) s with hc | ⟨name, rest, hname, rfl⟩
      · by_cases hs : s = []
        · rw [hs] at h
          cases h
        · rw [tokens_of_not_mem hc hs, List.mem_singleton] at h
          rw [h]
          exact ⟨hs, hc, fun b hb => hb⟩
      · rw [tokens_append] at h
        have hlen : (name ++ c :: rest).length = name.length + rest.length + 1 := by
          rw [List.length_append, List.length_cons, Nat.add_assoc]
        rcases List.mem_append.1 h with h | h
        · obtain ⟨hne, hfree, hsub⟩ := ih name.length (by omega) h rfl
          exact ⟨hne, hfree, fun b hb => List.mem_append_left _ (hsub b hb)⟩
        · obtain ⟨hne, hfree, hsub⟩ := ih rest.length (by omega) h rfl
          exact ⟨hne, hfree, fun b hb => List.mem_append_right _ (List.mem_cons_of_mem _ (hsub b hb))⟩

/-- The pieces of `l` between the separators `c`, without a final empty one. -/
def fields (c : UInt8) (l : List UInt8) : List (List UInt8) :=
  if (l.splitOn c).getLast? = some [] then (l.splitOn c).dropLast else l.splitOn c

theorem fields_nil : fields c [] = [] := rfl

theorem fields_of_not_mem (h : c ∉ s) (hs : s ≠ []) : fields c s = [s] := by
  rw [fields, List.splitOn_eq_singleton h, if_neg]
  simpa using hs

/-- A field ends at the next separator. -/
theorem fields_append (h : c ∉ s) (t : List UInt8) : fields c (s ++ c :: t) = s :: fields c t := by
  have hne : t.splitOn c ≠ [] := List.splitOn_ne_nil c t
  have hsplit : (s ++ c :: t).splitOn c = s :: t.splitOn c := by
    rw [List.splitOn_append_cons_self, List.splitOn_eq_singleton h]
    rfl
  rw [fields, fields, hsplit, List.getLast?_cons_of_ne_nil hne, List.dropLast_cons_of_ne_nil hne]
  split_ifs
  · rfl
  · rfl

end CStrings
