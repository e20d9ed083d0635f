import Mathlib.Data.Nat.Digits.Defs
import Mathlib.Tactic
import OscKernel.ByteMemory

/-!
# Bytes of a number

`value` is the number with the given bytes, least significant first, and `bytes n` the `n` lowest bytes
of a number. Big-endian numbers are read through `List.reverse`. `word` and `setWord` load and store a
number of eight bytes in a byte memory.
-/

namespace ByteOrder

variable {b : UInt8} {as bs : List UInt8} {n v : ℕ}

def value (bs : List UInt8) : ℕ := Nat.ofDigits 256 (bs.map UInt8.toNat)

def bytes : ℕ → ℕ → List UInt8
  | 0, _ => []
  | n + 1, v => UInt8.ofNat v :: bytes n (v / 256)

@[simp] theorem value_nil : value [] = 0 := rfl

theorem value_cons (b : UInt8) (bs : List UInt8) : value (b :: bs) = b.toNat + 256 * value bs :=
  Nat.ofDigits_cons ..

theorem value_lt (bs : List UInt8) : value bs < 256 ^ bs.length := by
  have hlt : ∀ x ∈ bs.map UInt8.toNat, x < 256 := by
    intro x hx
    obtain ⟨b, -, rfl⟩ := List.mem_map.1 hx
    exact b.toNat_lt
  have h := Nat.ofDigits_lt_base_pow_length (by decide) hlt
  rwa [List.length_map] at h

@[simp] theorem bytes_length (n v : ℕ) : (bytes n v).length = n := by
  induction n generalizing v with
  | zero => rfl
  | succ n ih => rw [bytes, List.length_cons, ih]

theorem value_bytes (n v : ℕ) : value (bytes n v) = v % 256 ^ n := by
  induction n generalizing v with
  | zero => rw [pow_zero, Nat.mod_one]; rfl
  | succ n ih =>
      rw [bytes, value_cons, ih, pow_succ', Nat.mod_mul]
      rfl

theorem value_bytes_of_lt (h : v < 256 ^ n) : value (bytes n v) = v := by
  rw [value_bytes, Nat.mod_eq_of_lt h]

theorem bytes_value (bs : List UInt8) : bytes bs.length (value bs) = bs := by
  induction bs with
  | nil => rfl
  | cons b bs ih =>
      have hb := b.toNat_lt
      have hdiv : value (b :: bs) / 256 = value bs := by
        rw [value_cons]
        omega
      have hmod : UInt8.ofNat (value (b :: bs)) = b := by
        apply UInt8.toNat_inj.1
        rw [UInt8.toNat_ofNat', value_cons]
        omega
      rw [List.length_cons, bytes, hdiv, hmod, ih]

/-- The byte at bit `k`, left where it is. -/
theorem and_byte (x k : ℕ) : x &&& 255 <<< k = x / 2 ^ k % 256 * 2 ^ k := by
  have hmod : x / 2 ^ k % 256 = (x >>> k) &&& 255 := by
    rw [Nat.shiftRight_eq_div_pow]
    exact (Nat.and_two_pow_sub_one_eq_mod _ 8).symm
  rw [← Nat.shiftLeft_eq, hmod]
  apply Nat.eq_of_testBit_eq
  intro i
  by_cases hi : k ≤ i <;> simp [Nat.testBit_shiftLeft, Nat.testBit_shiftRight, hi, Nat.testBit_and]

/-- An or with a number below the lowest bit is a sum. -/
theorem or_eq_add {a b : ℕ} (k : ℕ) (hb : b < 2 ^ k) : a * 2 ^ k ||| b = a * 2 ^ k + b := by
  rw [← Nat.shiftLeft_eq, ← Nat.shiftLeft_add_eq_or_of_lt hb]

/-- Setting the next higher byte by shifting and or-ing. -/
theorem or_shiftLeft {acc : ℕ} (b : UInt8) (h : acc < 256 ^ n) :
    acc ||| b.toNat <<< (n * 8) = acc + 256 ^ n * b.toNat := by
  have hpow : (256 : ℕ) ^ n = 2 ^ (n * 8) := by
    rw [Nat.mul_comm, pow_mul]
    rfl
  rw [hpow] at h
  rw [Nat.or_comm, Nat.shiftLeft_eq, or_eq_add _ h, hpow]
  ring

/-- The number of eight bytes at an address. -/
def word (m : ByteMem) (a : ℕ) : ℕ := value (m.read a 8)

def setWord (m : ByteMem) (a v : ℕ) : ByteMem := m.write a (bytes 8 v)

variable {m m' : ByteMem} {a c x : ℕ}

theorem word_lt (m : ByteMem) (a : ℕ) : word m a < 2 ^ 64 := by
  have h := value_lt (m.read a 8)
  rw [ByteMem.read_length] at h
  exact h

theorem word_congr (h : ∀ x, a ≤ x → x < a + 8 → m' x = m x) : word m' a = word m a := by
  rw [word, word, ByteMem.read_congr a 8 h]

theorem word_setWord (hv : v < 2 ^ 64) : word (setWord m a v) a = v := by
  have hread := ByteMem.read_write_same m a (bytes 8 v)
  rw [bytes_length] at hread
  rw [word, setWord, hread]
  exact value_bytes_of_lt hv

theorem setWord_outside (h : x < a ∨ a + 8 ≤ x) : setWord m a v x = m x :=
  ByteMem.write_outside m a _ (by rwa [bytes_length])

theorem word_setWord_apart (h : c + 8 ≤ a ∨ a + 8 ≤ c) : word (setWord m a v) c = word m c :=
  word_congr fun _ hlo hhi => setWord_outside (by omega)

end ByteOrder
