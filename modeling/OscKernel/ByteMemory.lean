import Mathlib.Tactic

/-!
# Byte memory

A memory maps addresses to bytes. `write` stores a list of bytes and `read` loads one; `copy` is the
byte by byte loop of a forward memory copy, which is a `write` of a `read` when the two ranges are
apart. Overwriting a part of a range splices the new bytes into the old ones.
-/

abbrev ByteMem := ℕ → UInt8

namespace ByteMem

variable (m : ByteMem) (a b n k : ℕ) (bs : List UInt8)

def read (m : ByteMem) (a n : ℕ) : List UInt8 := (List.range n).map fun i => m (a + i)

def write (m : ByteMem) (a : ℕ) : List UInt8 → ByteMem
  | [] => m
  | b :: bs => write (Function.update m a b) (a + 1) bs

def copy (m : ByteMem) (dst src : ℕ) : ℕ → ByteMem
  | 0 => m
  | n + 1 => copy (Function.update m dst (m src)) (dst + 1) (src + 1) n

/-- The bytes `bs` put over the content `l` from position `pos` on. -/
def splice (l : List UInt8) (pos : ℕ) (bs : List UInt8) : List UInt8 :=
  l.take pos ++ bs ++ l.drop (pos + bs.length)

@[simp] theorem read_length : (read m a n).length = n := by simp [read]

theorem read_getElem? {i : ℕ} (h : i < n) : (read m a n)[i]? = some (m (a + i)) := by
  simp [read, h]

theorem read_congr {m m' : ByteMem} (h : ∀ x, a ≤ x → x < a + n → m' x = m x) :
    read m' a n = read m a n := by
  apply List.map_congr_left
  intro i hi
  have := List.mem_range.1 hi
  exact h _ (by omega) (by omega)

theorem read_append : read m a (n + k) = read m a n ++ read m (a + n) k := by
  simp only [read, List.range_add, List.map_append, List.map_map, Function.comp_def, Nat.add_assoc]

theorem take_read (h : k ≤ n) : (read m a n).take k = read m a k := by
  obtain ⟨d, rfl⟩ := Nat.exists_eq_add_of_le h
  rw [read_append, List.take_left' (read_length m a k)]

theorem drop_read (h : k ≤ n) : (read m a n).drop k = read m (a + k) (n - k) := by
  obtain ⟨d, rfl⟩ := Nat.exists_eq_add_of_le h
  rw [read_append, List.drop_left' (read_length m a k), Nat.add_sub_cancel_left]

/-- Reading a part of a range, as far as the range goes. -/
theorem slice_read (pos : ℕ) :
    ((read m a n).drop pos).take k = read m (a + pos) (min k (n - pos)) := by
  by_cases hpos : pos ≤ n
  · rw [drop_read m a n pos hpos]
    by_cases hk : k ≤ n - pos
    · rw [take_read m _ _ _ hk, min_eq_left hk]
    · rw [List.take_of_length_le (by rw [read_length]; omega), min_eq_right (by omega)]
  · rw [List.drop_of_length_le (by rw [read_length]; omega), Nat.sub_eq_zero_of_le (by omega),
      Nat.min_zero, List.take_nil]
    rfl

theorem write_append (bs cs : List UInt8) :
    write m a (bs ++ cs) = write (write m a bs) (a + bs.length) cs := by
  induction bs generalizing m a with
  | nil => rfl
  | cons b bs ih =>
      rw [List.cons_append, write, ih, List.length_cons, Nat.add_right_comm, Nat.add_assoc]
      rfl

theorem write_outside {x : ℕ} (h : x < a ∨ a + bs.length ≤ x) : write m a bs x = m x := by
  induction bs generalizing m a with
  | nil => rfl
  | cons b bs ih =>
      rw [List.length_cons] at h
      rw [write, ih _ _ (by omega), Function.update_of_ne (by omega)]

theorem read_write_same : read (write m a bs) a bs.length = bs := by
  induction bs generalizing m a with
  | nil => rfl
  | cons b bs ih =>
      rw [List.length_cons, Nat.add_comm, read_append, write, ih]
      simp [read, write_outside, Function.update_self]

theorem read_write_apart (h : b + n ≤ a ∨ a + bs.length ≤ b) :
    read (write m a bs) b n = read m b n := by
  apply read_congr
  intro x hlo hhi
  exact write_outside m a bs (by omega)

theorem copy_outside (dst src : ℕ) {x : ℕ} (h : x < dst ∨ dst + n ≤ x) :
    copy m dst src n x = m x := by
  induction n generalizing m dst src with
  | zero => rfl
  | succ n ih => rw [copy, ih _ _ _ (by omega), Function.update_of_ne (by omega)]

/-- A forward copy brings the old bytes over unless its destination begins inside the source. -/
theorem read_copy (dst src : ℕ) (h : dst ≤ src ∨ src + n ≤ dst) :
    read (copy m dst src n) dst n = read m src n := by
  induction n generalizing m dst src with
  | zero => rfl
  | succ n ih =>
      have hhead : copy (Function.update m dst (m src)) (dst + 1) (src + 1) n dst = m src := by
        rw [copy_outside _ _ _ _ (by omega), Function.update_self]
      have hread : ∀ (k : ByteMem) (x : ℕ), read k x (n + 1) = k x :: read k (x + 1) n := by
        intro k x
        rw [Nat.add_comm, read_append]
        rfl
      have hsame : read (Function.update m dst (m src)) (src + 1) n = read m (src + 1) n := by
        apply read_congr
        intro x hlo hhi
        exact Function.update_of_ne (by omega) _ _
      rw [copy, hread, hhead, ih _ _ _ (by omega), hread, hsame]

/-- Between ranges that are apart, copying is reading and writing. -/
theorem copy_eq_write (dst src : ℕ) (h : dst + n ≤ src ∨ src + n ≤ dst) :
    copy m dst src n = write m dst (read m src n) := by
  induction n generalizing m dst src with
  | zero => rfl
  | succ n ih =>
      have hread : read m src (n + 1) = m src :: read m (src + 1) n := by
        rw [Nat.add_comm, read_append]
        rfl
      have hsame : read (Function.update m dst (m src)) (src + 1) n = read m (src + 1) n := by
        apply read_congr
        intro x hlo hhi
        exact Function.update_of_ne (by omega) _ _
      rw [copy, ih _ _ _ (by omega), hread, write, hsame]

/-- The memory has the bytes `bs` from `a` on. -/
def Has (m : ByteMem) (a : ℕ) (bs : List UInt8) : Prop := read m a bs.length = bs

variable {m a} in
theorem has_append {bs cs : List UInt8} :
    Has m a (bs ++ cs) ↔ Has m a bs ∧ Has m (a + bs.length) cs := by
  rw [Has, List.length_append, read_append]
  exact ⟨fun h => List.append_inj h (read_length ..), fun h => congrArg₂ _ h.1 h.2⟩

variable {m a} in
theorem has_cons {b : UInt8} {bs : List UInt8} : Has m a (b :: bs) ↔ m a = b ∧ Has m (a + 1) bs := by
  rw [← List.singleton_append, has_append]
  simp [Has, read]

/-- Writing `bs` at position `pos` of a range splices it into the content of the range. -/
theorem read_write_splice {pos size : ℕ} (h : pos ≤ size) :
    read (write m (a + pos) bs) a (max size (pos + bs.length)) = splice (read m a size) pos bs := by
  have hmax : max size (pos + bs.length) = pos + (bs.length + (size - (pos + bs.length))) := by omega
  rw [splice, hmax, read_append, read_append, read_write_same, take_read m a _ _ h, List.append_assoc]
  congr 1
  · exact read_write_apart _ _ _ _ _ (by omega)
  · congr 1
    rw [read_write_apart _ _ _ _ _ (by omega)]
    by_cases hle : pos + bs.length ≤ size
    · rw [drop_read m a _ _ hle, Nat.add_assoc]
    · rw [List.drop_of_length_le (by rw [read_length]; omega), Nat.sub_eq_zero_of_le (by omega)]
      rfl

end ByteMem
