import OscKernel.CStrings
import OscKernel.Numerals

/-!
# Numbers and strings

`atoi` and `itoa` of `utils.c`. An `int` wraps around on overflow, and `char` is unsigned. The digits of
a number are put into a static buffer backwards and then reversed in place.
-/

namespace OscKernel.Utils

open Numerals CStrings

variable {m : ByteMem} {buffer i j k n x : ℕ} {num r : Int32} {cs s : List UInt8}

theorem toInt_tenth (h : num.toInt = n) : (num / 10).toInt = (n / 10 : ℕ) := by
  rw [Int32.toInt_div_of_ne_right _ _ (by decide), h]
  rfl

theorem toInt_unit (h : num.toInt = n) : (num % 10).toInt = (n % 10 : ℕ) := by
  rw [Int32.toInt_mod, h]
  rfl

theorem unit_char (h : num.toInt = n) : (num % 10 + 48).toUInt32.toUInt8 = digit (n % 10) := by
  have hunit : num % 10 = Int32.ofNat (n % 10) := by
    apply Int32.toInt_inj.1
    rw [toInt_unit h, Int32.toInt_ofNat_of_lt (by omega)]
  rw [hunit]
  have hlt := Nat.mod_lt n (by decide : 0 < 10)
  generalize n % 10 = d at hlt
  interval_cases d <;> rfl

def putDigits (m : ByteMem) (buffer i : ℕ) (num : Int32) : ByteMem × ℕ :=
  if 0 < num then
    putDigits (Function.update m (buffer + i) (num % 10 + 48).toUInt32.toUInt8) buffer (i + 1) (num / 10)
  else (m, i)
termination_by num.toInt.toNat
decreasing_by
  have hpos := Int32.lt_iff_toInt_lt.1 ‹_›
  obtain ⟨n, hn⟩ := Int.eq_ofNat_of_zero_le (le_of_lt hpos)
  rw [toInt_tenth hn, hn, Int.toNat_natCast, Int.toNat_natCast]
  rw [hn, Int32.toInt_zero] at hpos
  omega

theorem putDigits_eq (h : num.toInt = n) : putDigits m buffer i num =
    (m.write (buffer + i) ((Nat.digits 10 n).map digit), i + (Nat.digits 10 n).length) := by
  induction n using Nat.strong_induction_on generalizing m i num with
  | h n ih =>
      rw [putDigits]
      by_cases hn : n = 0
      · subst hn
        have hnot : ¬ 0 < num := by
          rw [Int32.lt_iff_toInt_lt, h]
          decide
        rw [if_neg hnot, Nat.digits_zero]
        rfl
      · have hpos : 0 < num := by
          rw [Int32.lt_iff_toInt_lt, h, Int32.toInt_zero]
          omega
        rw [if_pos hpos, ih (n / 10) (by omega) (toInt_tenth h), unit_char h,
          Nat.digits_def' (by decide) (Nat.pos_of_ne_zero hn)]
        simp only [List.map_cons, ByteMem.write, List.length_cons, Nat.add_assoc, Nat.add_comm 1]

def swap (m : ByteMem) (buffer i j : ℕ) : ByteMem :=
  let temp := m (buffer + j)
  Function.update (Function.update m (buffer + j) (m (buffer + (i - j - 1)))) (buffer + (i - j - 1)) temp

def reverse (m : ByteMem) (buffer i : ℕ) : ℕ → ByteMem
  | 0 => m
  | j + 1 => swap (reverse m buffer i j) buffer i j

theorem reverse_outside (hj : 2 * j ≤ i) (hx : x < buffer ∨ buffer + i ≤ x) :
    reverse m buffer i j x = m x := by
  induction j with
  | zero => rfl
  | succ j ih =>
      rw [reverse, swap, Function.update_of_ne (by omega), Function.update_of_ne (by omega)]
      exact ih (by omega)

/-- After `j` rounds the outer `j` bytes on both sides have changed places. -/
theorem reverse_inside (hj : 2 * j ≤ i) (hx : x < i) : reverse m buffer i j (buffer + x) =
    if x < j ∨ i ≤ x + j then m (buffer + (i - 1 - x)) else m (buffer + x) := by
  induction j generalizing x with
  | zero => rw [reverse, if_neg (by omega)]
  | succ j ih =>
      rw [reverse, swap]
      by_cases hright : x = i - j - 1
      · rw [← hright, Function.update_self, ih (by omega) (by omega), if_neg (by omega),
          if_pos (by omega)]
        congr 2
        omega
      · rw [Function.update_of_ne (by omega)]
        by_cases hleft : x = j
        · rw [hleft, Function.update_self, ih (by omega) (by omega), if_neg (by omega),
            if_pos (by omega)]
          congr 2
          omega
        · rw [Function.update_of_ne (by omega), ih (by omega) hx]
          refine if_congr ?_ rfl rfl
          omega

theorem read_reverse (m : ByteMem) (buffer i : ℕ) :
    (reverse m buffer i (i / 2)).read buffer i = (m.read buffer i).reverse := by
  apply List.ext_getElem
  · simp
  · intro x hx _
    rw [ByteMem.read_length] at hx
    simp only [ByteMem.read, List.getElem_map, List.getElem_range, List.getElem_reverse,
      List.length_map, List.length_range]
    rw [reverse_inside (by omega) hx]
    split_ifs with hout
    · rfl
    · congr 2
      omega

theorem reverse_holds (h : (0 : UInt8) ∉ cs) :
    Holds (reverse (m.write buffer (cs ++ [0])) buffer cs.length (cs.length / 2)) buffer cs.reverse := by
  refine ⟨fun h0 => h (List.mem_reverse.1 h0), ?_⟩
  have hread := ByteMem.has_append.1 (ByteMem.read_write_same m buffer (cs ++ [0]))
  have hlast : reverse (m.write buffer (cs ++ [0])) buffer cs.length (cs.length / 2)
      (buffer + cs.length) = 0 := by
    rw [reverse_outside (by omega) (Or.inr le_rfl)]
    exact (ByteMem.has_cons.1 hread.2).1
  rw [List.length_reverse, ByteMem.read_append, read_reverse, hread.1]
  simp [ByteMem.read, hlast]

def bufferSize : ℕ := 12

def itoa (m : ByteMem) (buffer : ℕ) (num : Int32) : ByteMem × ℕ :=
  let isNegative := num < 0
  let num := if num < 0 then -num else num
  let r :=
    if num = 0 then (Function.update m (buffer + 0) zero, 1)
    else
      let r := putDigits m buffer 0 num
      if isNegative then (Function.update r.1 (buffer + r.2) minus, r.2 + 1) else r
  let m := Function.update r.1 (buffer + r.2) 0
  (reverse m buffer r.2 (r.2 / 2), buffer)

def atoiLoop (m : ByteMem) : ℕ → Int32 → ℕ → Option Int32
  | 0, _, _ => none
  | n + 1, result, str =>
      if m str ≠ 0 then atoiLoop m n (result * 10 + Int32.ofNat (m str).toNat - 48) (str + 1)
      else some result

def atoi (m : ByteMem) (rounds str : ℕ) : Option Int32 := atoiLoop m rounds 0 str

/-- The characters of a number in the order in which they are put into the buffer. The least number is
not changed by the sign flip, and has no digits. -/
def chars (num : Int32) : List UInt8 :=
  if num = Int32.minValue then [minus] else (decimal num.toInt).reverse

theorem chars_of_ne (h : num ≠ Int32.minValue) : chars num = (decimal num.toInt).reverse := if_neg h

theorem chars_length_lt (num : Int32) : (chars num).length < bufferSize := by
  by_cases hmin : num = Int32.minValue
  · rw [hmin]
    decide
  · have hlo := num.le_toInt
    have hhi := num.toInt_lt
    have hnum : (numeral num.toInt.natAbs).length ≤ 10 := numeral_length_le (by omega) (by decide)
    rw [chars_of_ne hmin, List.length_reverse, decimal, bufferSize]
    split_ifs
    · rw [List.length_cons]
      omega
    · omega

/-- The digits of a number that is not zero, with the memory behind the loop. -/
theorem putDigits_numeral (h : num.toInt = n) (hn : n ≠ 0) : putDigits m buffer 0 num =
    (m.write buffer (numeral n).reverse, (numeral n).length) := by
  rw [putDigits_eq h, numeral_of_pos hn, List.reverse_reverse, List.length_reverse, List.length_map,
    Nat.add_zero, Nat.zero_add]

theorem toInt_neg (h : num < 0) (hmin : num ≠ Int32.minValue) : (-num).toInt = num.toInt.natAbs := by
  have hneg := Int32.lt_iff_toInt_lt.1 h
  have hlo := num.le_toInt
  have hne : num.toInt ≠ -2 ^ 31 := fun he => hmin (Int32.toInt_inj.1 he)
  rw [Int32.toInt_zero] at hneg
  rw [Int32.toInt_neg, Int.bmod_eq_of_le (by omega) (by omega)]
  omega

theorem ne_zero_of_toInt (h : num.toInt = n) (hn : n ≠ 0) : num ≠ 0 := by
  rintro rfl
  rw [Int32.toInt_zero] at h
  omega

/-- The memory before the final zero and the reversal. -/
theorem put_eq (m : ByteMem) (buffer : ℕ) (num : Int32) :
    (if (if num < 0 then -num else num) = 0 then (Function.update m (buffer + 0) zero, 1)
      else
        let r := putDigits m buffer 0 (if num < 0 then -num else num)
        if num < 0 then (Function.update r.1 (buffer + r.2) minus, r.2 + 1) else r) =
      (m.write buffer (chars num), (chars num).length) := by
  by_cases hneg : num < 0
  · rw [if_pos hneg]
    by_cases hmin : num = Int32.minValue
    · subst hmin
      have hloop : putDigits m buffer 0 (-Int32.minValue) = (m, 0) := by
        rw [putDigits, if_neg (by decide)]
      rw [if_neg (by decide), hloop]
      rfl
    · have habs := toInt_neg hneg hmin
      have hlt := Int32.lt_iff_toInt_lt.1 hneg
      rw [Int32.toInt_zero] at hlt
      have hne : num.toInt.natAbs ≠ 0 := by omega
      rw [if_neg (ne_zero_of_toInt habs hne), putDigits_numeral habs hne, chars_of_ne hmin,
        decimal_of_neg hlt, List.reverse_cons, ByteMem.write_append]
      simp only [if_pos hneg, List.length_append, List.length_reverse, List.length_singleton]
      rfl
  · have hle : 0 ≤ num.toInt := by
      rw [Int32.lt_iff_toInt_lt, Int32.toInt_zero] at hneg
      omega
    have hmin : num ≠ Int32.minValue := by
      rintro rfl
      exact absurd hle (by decide)
    obtain ⟨n, hn⟩ := Int.eq_ofNat_of_zero_le hle
    rw [if_neg hneg, chars_of_ne hmin, decimal_of_nonneg hle, hn, Int.natAbs_natCast]
    by_cases h0 : n = 0
    · subst h0
      have hzero : num = 0 := Int32.toInt_inj.1 hn
      rw [if_pos hzero]
      rfl
    · rw [if_neg (ne_zero_of_toInt hn h0), putDigits_numeral hn h0]
      simp only [if_neg hneg, List.length_reverse]

theorem itoa_eq (m : ByteMem) (buffer : ℕ) (num : Int32) : itoa m buffer num =
    (reverse (m.write buffer (chars num ++ [0])) buffer (chars num).length ((chars num).length / 2),
      buffer) := by
  rw [itoa]
  simp only [put_eq]
  rw [ByteMem.write_append]
  rfl

theorem zero_not_mem_chars : (0 : UInt8) ∉ chars num := by
  by_cases hmin : num = Int32.minValue
  · rw [hmin]
    decide
  · rw [chars_of_ne hmin, List.mem_reverse]
    exact zero_not_mem_decimal

/-- The string in the buffer. -/
theorem itoa_holds (m : ByteMem) (buffer : ℕ) (num : Int32) :
    Holds (itoa m buffer num).1 buffer (chars num).reverse := by
  rw [itoa_eq]
  exact reverse_holds zero_not_mem_chars

theorem itoa_outside (hx : x < buffer ∨ buffer + bufferSize ≤ x) : (itoa m buffer num).1 x = m x := by
  have hlen := chars_length_lt num
  rw [itoa_eq]
  change reverse _ buffer (chars num).length _ x = m x
  rw [reverse_outside (by omega) (by omega)]
  apply ByteMem.write_outside
  rw [List.length_append, List.length_singleton]
  omega

theorem ofInt_accumulate (r : ℤ) (b : UInt8) :
    Int32.ofInt r * 10 + Int32.ofNat b.toNat - 48 = Int32.ofInt (r * 10 + b.toNat - 48) := by
  rw [Int32.ofInt_sub, Int32.ofInt_add, Int32.ofInt_mul]
  rfl

/-- The loop accumulates as integers do, modulo `2 ^ 32`. -/
theorem atoiLoop_holds (h : Holds m x s) (n : ℕ) (r : ℤ) : atoiLoop m n (Int32.ofInt r) x =
    if s.length < n then some (Int32.ofInt (accumulate r s)) else none := by
  induction s generalizing x n r with
  | nil =>
      cases n with
      | zero => rfl
      | succ n =>
          rw [atoiLoop, if_neg (not_not.2 (holds_nil.1 h))]
          exact (if_pos (Nat.succ_pos n)).symm
  | cons b s ih =>
      obtain ⟨hb, hx, hs⟩ := holds_cons.1 h
      cases n with
      | zero => rfl
      | succ n =>
          rw [atoiLoop, hx, if_pos hb, ofInt_accumulate, ih hs]
          simp only [List.length_cons, Nat.add_lt_add_iff_right]
          rfl

theorem atoi_iff (h : Holds m x s) :
    (∃ rounds, atoi m rounds x = some num) ↔ Int32.ofInt (accumulate 0 s) = num := by
  have hloop : ∀ rounds, atoi m rounds x =
      if s.length < rounds then some (Int32.ofInt (accumulate 0 s)) else none :=
    fun rounds => atoiLoop_holds h rounds 0
  constructor
  · rintro ⟨rounds, hr⟩
    rw [hloop] at hr
    split_ifs at hr
    exact Option.some.inj hr
  · rintro rfl
    exact ⟨s.length + 1, by rw [hloop, if_pos (Nat.lt_succ_self _)]⟩

/-- `itoa` leaves the decimal numeral of `num` in its buffer and touches nothing else, and `atoi` reads
it back. -/
structure RoundTrips (m : ByteMem) (buffer : ℕ) (num : Int32) : Prop where
  result : (itoa m buffer num).2 = buffer
  numeral : Holds (itoa m buffer num).1 buffer (decimal num.toInt)
  fits : (decimal num.toInt).length < bufferSize
  outside : ∀ x, x < buffer ∨ buffer + bufferSize ≤ x → (itoa m buffer num).1 x = m x
  back : ∃ rounds, atoi (itoa m buffer num).1 rounds (itoa m buffer num).2 = some num

/-- The numeral is right but for the least number, which has no digits. -/
theorem itoa_decimal_iff (m : ByteMem) (buffer : ℕ) (num : Int32) :
    Holds (itoa m buffer num).1 buffer (decimal num.toInt) ↔ num ≠ Int32.minValue := by
  constructor
  · rintro h rfl
    have heq := (itoa_holds m buffer Int32.minValue).unique h
    have hlen := congrArg List.length heq
    revert hlen
    decide
  · intro hmin
    have h := itoa_holds m buffer num
    rwa [chars_of_ne hmin, List.reverse_reverse] at h

theorem ofInt_eq_iff {v : ℤ} : Int32.ofInt v = num ↔ (2 ^ 32 : ℤ) ∣ num.toInt - v := by
  have hlo := num.le_toInt
  have hhi := num.toInt_lt
  rw [← Int32.toInt_inj, Int32.toInt_ofInt, Int.bmod_eq_iff (by decide)]
  constructor
  · exact fun h => h.2.2
  · refine fun h => ⟨?_, ?_, h⟩
    · simp only [Int32.size]
      omega
    · simp only [Int32.size]
      omega

/-- What `atoi` makes of the numeral of a negative number is that number in one case only: the sign counts
as the digit `-3` in front, and the sum has wrapped around. -/
theorem accumulate_neg_iff (h : num.toInt < 0) :
    Int32.ofInt (accumulate 0 (decimal num.toInt)) = num ↔ num = -2115098112 := by
  have hlo := num.le_toInt
  have hvalue : num = -2115098112 ↔ num.toInt = -2115098112 := Int32.toInt_inj.symm
  rw [ofInt_eq_iff, accumulate_decimal_neg h, hvalue]
  generalize num.toInt = z at h hlo
  obtain ⟨a, rfl⟩ : ∃ a : ℕ, z = -a := ⟨z.natAbs, by omega⟩
  rw [Int.natAbs_neg, Int.natAbs_natCast]
  have ha : a ≠ 0 := by omega
  have hlen := numeral_length_le_iff ha
  have hten : (numeral a).length ≤ 10 := (hlen 10).2 (by omega)
  have hle := (hlen (numeral a).length).1 le_rfl
  have hlt := mt (hlen ((numeral a).length - 1)).2
  generalize (numeral a).length = k at *
  clear hlen
  interval_cases k <;> omega

theorem itoa_round_trip_iff (m : ByteMem) (buffer : ℕ) (num : Int32) :
    RoundTrips m buffer num ↔ 0 ≤ num ∨ num = -2115098112 := by
  have hback : num ≠ Int32.minValue → ((∃ rounds, atoi (itoa m buffer num).1 rounds buffer = some num) ↔
      Int32.ofInt (accumulate 0 (decimal num.toInt)) = num) := fun hmin =>
    atoi_iff ((itoa_decimal_iff m buffer num).2 hmin)
  rw [Int32.le_iff_toInt_le, Int32.toInt_zero]
  constructor
  · intro h
    have hmin := (itoa_decimal_iff m buffer num).1 h.numeral
    by_cases hneg : num.toInt < 0
    · exact Or.inr ((accumulate_neg_iff hneg).1 ((hback hmin).1 h.back))
    · exact Or.inl (not_lt.1 hneg)
  · intro h
    have hmin : num ≠ Int32.minValue := by
      rintro rfl
      exact h.elim (by decide) (by decide)
    refine ⟨rfl, (itoa_decimal_iff m buffer num).2 hmin, ?_, fun x => itoa_outside, (hback hmin).2 ?_⟩
    · have hlen := chars_length_lt num
      rwa [chars_of_ne hmin, List.length_reverse] at hlen
    · by_cases hneg : num.toInt < 0
      · exact (accumulate_neg_iff hneg).2 (h.resolve_left (not_le.2 hneg))
      · rw [ofInt_eq_iff, decimal_of_nonneg (not_lt.1 hneg), accumulate_numeral]
        omega

/-- `"-5"` is read as `-25`. -/
theorem itoa_negative_breaks : ¬ RoundTrips (fun _ => 0) 4096 (-5) := by
  intro h
  have hback := (atoi_iff h.numeral).1 h.back
  rw [accumulate_neg_iff (by decide)] at hback
  exact absurd hback (by decide)

end OscKernel.Utils
