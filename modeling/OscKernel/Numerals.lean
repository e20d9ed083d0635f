import Mathlib.Data.Nat.Digits.Lemmas
import Mathlib.Tactic

/-!
# Decimal numerals

The decimal numeral of an integer as a string of ASCII bytes, and the value that a left to right
accumulation of digits gives a string. The accumulation takes any byte for a digit, so a sign in front
counts as a digit of its own.
-/

namespace Numerals

variable {n k : ℕ} {z r : ℤ} {b : UInt8} {s t : List UInt8}

def zero : UInt8 := 48

def minus : UInt8 := 45

def digit (d : ℕ) : UInt8 := UInt8.ofNat (48 + d)

/-- The digits of a number, the most significant first; `0` has one digit. -/
def numeral (n : ℕ) : List UInt8 :=
  if n = 0 then [zero] else ((Nat.digits 10 n).map digit).reverse

def decimal (z : ℤ) : List UInt8 := if z < 0 then minus :: numeral z.natAbs else numeral z.natAbs

theorem digit_toNat (h : k < 10) : (digit k).toNat = 48 + k := by
  rw [digit, UInt8.toNat_ofNat', Nat.mod_eq_of_lt (by omega)]

theorem numeral_of_pos (h : n ≠ 0) : numeral n = ((Nat.digits 10 n).map digit).reverse := if_neg h

theorem decimal_of_nonneg (h : 0 ≤ z) : decimal z = numeral z.natAbs := if_neg (not_lt.2 h)

theorem decimal_of_neg (h : z < 0) : decimal z = minus :: numeral z.natAbs := if_pos h

theorem numeral_length_le_iff (hn : n ≠ 0) (k : ℕ) : (numeral n).length ≤ k ↔ n < 10 ^ k := by
  rw [numeral_of_pos hn, List.length_reverse, List.length_map]
  exact Nat.digits_length_le_iff (by decide) n

theorem numeral_length_le (h : n < 10 ^ k) (hk : 0 < k) : (numeral n).length ≤ k := by
  by_cases hn : n = 0
  · rw [hn]
    exact hk
  · exact (numeral_length_le_iff hn k).2 h

theorem isDigit_of_mem_numeral (h : b ∈ numeral n) : 48 ≤ b.toNat ∧ b.toNat < 58 := by
  by_cases hn : n = 0
  · rw [hn] at h
    rw [List.mem_singleton.1 h]
    decide
  · rw [numeral_of_pos hn, List.mem_reverse, List.mem_map] at h
    obtain ⟨d, hd, rfl⟩ := h
    have hlt := Nat.digits_lt_base (by decide) hd
    rw [digit_toNat hlt]
    omega

theorem zero_not_mem_decimal : (0 : UInt8) ∉ decimal z := by
  have hnum : ∀ n, (0 : UInt8) ∉ numeral n := fun n h => by
    have hd := isDigit_of_mem_numeral h
    exact absurd hd.1 (by decide)
  by_cases hz : z < 0
  · rw [decimal_of_neg hz, List.mem_cons]
    exact fun h => h.elim (by decide) (hnum _)
  · rw [decimal_of_nonneg (not_lt.1 hz)]
    exact hnum _

/-- The loop of `result * 10 + c - '0'`. -/
def accumulate (r : ℤ) (s : List UInt8) : ℤ := s.foldl (fun r b => r * 10 + b.toNat - 48) r

theorem accumulate_append (r : ℤ) (s t : List UInt8) :
    accumulate r (s ++ t) = accumulate (accumulate r s) t :=
  List.foldl_append ..

/-- What was accumulated before counts as the digits in front. -/
theorem accumulate_eq (r : ℤ) (s : List UInt8) :
    accumulate r s = r * 10 ^ s.length + accumulate 0 s := by
  induction s generalizing r with
  | nil => simp [accumulate]
  | cons b s ih =>
      change accumulate (r * 10 + b.toNat - 48) s = _ + accumulate (0 * 10 + b.toNat - 48) s
      rw [ih, ih (0 * 10 + b.toNat - 48), List.length_cons]
      ring

theorem accumulate_digits (ds : List ℕ) (h : ∀ d ∈ ds, d < 10) :
    accumulate 0 (ds.map digit).reverse = (Nat.ofDigits 10 ds : ℕ) := by
  induction ds with
  | nil => rfl
  | cons d ds ih =>
      have hd := digit_toNat (h d List.mem_cons_self)
      rw [List.map_cons, List.reverse_cons, accumulate_append,
        ih fun e he => h e (List.mem_cons_of_mem d he), Nat.ofDigits_cons]
      simp only [accumulate, List.foldl_cons, List.foldl_nil, hd]
      push_cast
      ring

theorem accumulate_numeral (n : ℕ) : accumulate 0 (numeral n) = n := by
  by_cases hn : n = 0
  · rw [hn]
    rfl
  · rw [numeral_of_pos hn, accumulate_digits _ fun d hd => Nat.digits_lt_base (by decide) hd,
      Nat.ofDigits_digits]

/-- The sign counts as the digit `-3`. -/
theorem accumulate_decimal_neg (h : z < 0) :
    accumulate 0 (decimal z) = -3 * 10 ^ (numeral z.natAbs).length + z.natAbs := by
  rw [decimal_of_neg h]
  change accumulate (0 * 10 + 45 - 48) (numeral z.natAbs) = _
  rw [accumulate_eq, accumulate_numeral]
  norm_num

end Numerals
