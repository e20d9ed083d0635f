import Mathlib.Data.BitVec
import Mathlib.Logic.Function.Basic
import Mathlib.Tactic.FinCases

/-!
# A part of AArch64

The instructions that move registers to the stack and back, and the entry and the return of an exception.
The memory maps addresses to 64-bit words. `pc` is followed only across exceptions and returns: straight-line
code is a list of instructions.
-/

namespace Aarch64

abbrev Word := BitVec 64

inductive SysReg where
  | spEl0 | spsrEl1 | elrEl1 | tpidrEl1
  deriving DecidableEq

instance instNeZeroRegisters : NeZero 31 := ⟨by decide⟩

structure Machine where
  x : Fin 31 → Word
  sp : Word
  sys : SysReg → Word
  pc : Word
  pstate : Word
  mem : Word → Word

/-- What an address is relative to. -/
inductive Base where
  | sp
  | x (i : Fin 31)

def Base.value (m : Machine) : Base → Word
  | .sp => m.sp
  | .x i => m.x i

inductive Instr where
  | stp (a b : Fin 31) (base : Base) (offset : ℕ)
  | ldp (a b : Fin 31) (base : Base) (offset : ℕ)
  | str (a : Fin 31) (base : Base) (offset : ℕ)
  | ldr (a : Fin 31) (base : Base) (offset : ℕ)
  | mrs (a : Fin 31) (r : SysReg)
  | msr (r : SysReg) (a : Fin 31)
  | movFromSp (a : Fin 31)
  | movToSp (a : Fin 31)
  | subSp (n : ℕ)
  | addSp (n : ℕ)

/-- The word with the number `i` from `p` on. -/
def slot (p : Word) (i : ℕ) : Word := p + BitVec.ofNat 64 (8 * i)

namespace Machine

def store (m : Machine) (a v : Word) : Machine := { m with mem := Function.update m.mem a v }

def setX (m : Machine) (i : Fin 31) (v : Word) : Machine := { m with x := Function.update m.x i v }

def setSys (m : Machine) (r : SysReg) (v : Word) : Machine := { m with sys := Function.update m.sys r v }

end Machine

def Instr.exec (m : Machine) : Instr → Machine
  | .stp a b base offset =>
      (m.store (base.value m + BitVec.ofNat 64 offset) (m.x a)).store
        (base.value m + BitVec.ofNat 64 (offset + 8)) (m.x b)
  | .ldp a b base offset =>
      (m.setX a (m.mem (base.value m + BitVec.ofNat 64 offset))).setX b
        (m.mem (base.value m + BitVec.ofNat 64 (offset + 8)))
  | .str a base offset => m.store (base.value m + BitVec.ofNat 64 offset) (m.x a)
  | .ldr a base offset => m.setX a (m.mem (base.value m + BitVec.ofNat 64 offset))
  | .mrs a r => m.setX a (m.sys r)
  | .msr r a => m.setSys r (m.x a)
  | .movFromSp a => m.setX a m.sp
  | .movToSp a => { m with sp := m.x a }
  | .subSp n => { m with sp := m.sp - BitVec.ofNat 64 n }
  | .addSp n => { m with sp := m.sp + BitVec.ofNat 64 n }

def run (m : Machine) (code : List Instr) : Machine := code.foldl Instr.exec m

/-- An exception is taken: the place and the state of the processor are in `elr_el1` and `spsr_el1`. The code
of the handler and the state that it begins in do not matter here. -/
def Machine.take (m : Machine) (vector masked : Word) : Machine :=
  { m with
    sys := Function.update (Function.update m.sys .elrEl1 m.pc) .spsrEl1 m.pstate
    pc := vector
    pstate := masked }

def Machine.eret (m : Machine) : Machine := { m with pc := m.sys .elrEl1, pstate := m.sys .spsrEl1 }

def Machine.ret (m : Machine) : Machine := { m with pc := m.x 30 }

structure Machine.Agree (A : Set Word) (R : Set SysReg) (m m' : Machine) : Prop where
  x : m'.x = m.x
  sp : m'.sp = m.sp
  mem : ∀ a ∈ A, m'.mem a = m.mem a
  sys : ∀ r ∈ R, m'.sys r = m.sys r

/-- What an instruction reads apart from the registers is in `A` and `R`. -/
def Instr.Reads (A : Set Word) (R : Set SysReg) (m : Machine) : Instr → Prop
  | .ldp _ _ base offset =>
      base.value m + BitVec.ofNat 64 offset ∈ A ∧ base.value m + BitVec.ofNat 64 (offset + 8) ∈ A
  | .ldr _ base offset => base.value m + BitVec.ofNat 64 offset ∈ A
  | .mrs _ r => r ∈ R
  | _ => True

def Reads (A : Set Word) (R : Set SysReg) : Machine → List Instr → Prop
  | _, [] => True
  | m, instr :: code => instr.Reads A R m ∧ Reads A R (instr.exec m) code

section Agree

variable {A : Set Word} {R : Set SysReg} {m m' : Machine} {instr : Instr} {code rest : List Instr}
  {a v : Word} {i : Fin 31} {r : SysReg}

namespace Machine.Agree

theorem store (h : m.Agree A R m') : (m.store a v).Agree A R (m'.store a v) := by
  refine ⟨h.x, h.sp, ?_, h.sys⟩
  intro b hb
  by_cases hab : b = a
  · simp only [Machine.store, hab, Function.update_self]
  · simp only [Machine.store, Function.update_of_ne hab, h.mem b hb]

theorem setX (h : m.Agree A R m') : (m.setX i v).Agree A R (m'.setX i v) :=
  ⟨by rw [Machine.setX, Machine.setX, h.x], h.sp, h.mem, h.sys⟩

theorem setSys (h : m.Agree A R m') : (m.setSys r v).Agree A R (m'.setSys r v) := by
  refine ⟨h.x, h.sp, h.mem, ?_⟩
  intro q hq
  by_cases hqr : q = r
  · simp only [Machine.setSys, hqr, Function.update_self]
  · simp only [Machine.setSys, Function.update_of_ne hqr, h.sys q hq]

theorem setSp (h : m.Agree A R m') : Machine.Agree A R { m with sp := v } { m' with sp := v } :=
  ⟨h.x, rfl, h.mem, h.sys⟩

theorem base (h : m.Agree A R m') (base : Base) : base.value m' = base.value m := by
  cases base with
  | sp => exact h.sp
  | x i => exact congrFun h.x i

theorem exec (h : m.Agree A R m') (hreads : instr.Reads A R m) :
    (instr.exec m).Agree A R (instr.exec m') := by
  cases instr with
  | stp a b base offset =>
      simp only [Instr.exec, h.base, h.x]
      exact h.store.store
  | ldp a b base offset =>
      simp only [Instr.exec, h.base, h.mem _ hreads.1, h.mem _ hreads.2]
      exact h.setX.setX
  | str a base offset =>
      simp only [Instr.exec, h.base, h.x]
      exact h.store
  | ldr a base offset =>
      simp only [Instr.exec, h.base, h.mem _ hreads]
      exact h.setX
  | mrs a r =>
      simp only [Instr.exec, h.sys r hreads]
      exact h.setX
  | msr r a =>
      simp only [Instr.exec, h.x]
      exact h.setSys
  | movFromSp a =>
      simp only [Instr.exec, h.sp]
      exact h.setX
  | movToSp a =>
      have hsp : ({ m' with sp := m'.x a } : Machine) = { m' with sp := m.x a } := by rw [h.x]
      simp only [Instr.exec, hsp]
      exact h.setSp
  | subSp n =>
      simp only [Instr.exec, h.sp]
      exact h.setSp
  | addSp n =>
      simp only [Instr.exec, h.sp]
      exact h.setSp

theorem run (h : m.Agree A R m') (hreads : Reads A R m code) :
    (Aarch64.run m code).Agree A R (Aarch64.run m' code) := by
  induction code generalizing m m' with
  | nil => exact h
  | cons instr code ih => exact ih (h.exec hreads.1) hreads.2

end Machine.Agree

theorem run_append : run m (code ++ rest) = run (run m code) rest := List.foldl_append

theorem Reads.append (h : Reads A R m (code ++ rest)) : Reads A R (run m code) rest := by
  induction code generalizing m with
  | nil => exact h
  | cons instr code ih => exact ih h.2

/-- A system register that the code does not write. -/
theorem run_sys (h : ∀ a, .msr r a ∉ code) : (run m code).sys r = m.sys r := by
  induction code generalizing m with
  | nil => rfl
  | cons instr code ih =>
      have hrest : ∀ a, .msr r a ∉ code := fun a hmem => h a (List.mem_cons_of_mem _ hmem)
      rw [run, List.foldl_cons, ← run, ih hrest]
      cases instr with
      | msr q a =>
          have hne : r ≠ q := by
            rintro rfl
            exact h a (List.mem_cons_self ..)
          exact Function.update_of_ne hne _ _
      | _ => rfl

theorem run_pstate : (run m code).pstate = m.pstate := by
  induction code generalizing m with
  | nil => rfl
  | cons instr code ih =>
      rw [run, List.foldl_cons, ← run, ih]
      cases instr <;> rfl

end Agree

variable {p a : Word} {i j n : ℕ} {mem : Word → Word} {f : ℕ → Word}

theorem slot_inj (hi : i < 2 ^ 61) (hj : j < 2 ^ 61) : slot p i = slot p j ↔ i = j := by
  constructor
  · intro h
    have heq := congrArg BitVec.toNat ((BitVec.add_right_inj p).1 h)
    rw [BitVec.toNat_ofNat, BitVec.toNat_ofNat] at heq
    omega
  · rintro rfl
    rfl

/-- `n` words from `p` on. -/
def storeSlots (mem : Word → Word) (p : Word) (f : ℕ → Word) (n : ℕ) : Word → Word :=
  (List.range n).foldl (fun mem i => Function.update mem (slot p i) (f i)) mem

theorem storeSlots_succ :
    storeSlots mem p f (n + 1) = Function.update (storeSlots mem p f n) (slot p n) (f n) := by
  rw [storeSlots, List.range_succ, List.foldl_append]
  rfl

theorem storeSlots_self (hn : n ≤ 2 ^ 61) (hi : i < n) : storeSlots mem p f n (slot p i) = f i := by
  induction n with
  | zero => exact absurd hi (Nat.not_lt_zero i)
  | succ n ih =>
      rw [storeSlots_succ]
      by_cases heq : i = n
      · rw [heq, Function.update_self]
      · have hne : slot p i ≠ slot p n := fun h => heq ((slot_inj (by omega) (by omega)).1 h)
        rw [Function.update_of_ne hne, ih (by omega) (by omega)]

theorem storeSlots_outside (h : ∀ i < n, a ≠ slot p i) : storeSlots mem p f n a = mem a := by
  induction n with
  | zero => rfl
  | succ n ih =>
      rw [storeSlots_succ, Function.update_of_ne (h n (Nat.lt_succ_self n)),
        ih fun i hi => h i (Nat.lt_succ_of_lt hi)]

end Aarch64
