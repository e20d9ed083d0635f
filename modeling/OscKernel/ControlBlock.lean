import OscKernel.Syscalls

/-!
# Control blocks

All of `struct ThreadTask`, and what lies behind it in the memory of its block: `alloc` serves the request
for it with a whole page. The words from `sig_frame` on, of the structure and behind it, are where
`handle_signal` and `sys_sigreturn` keep a whole trap frame.
-/

namespace OscKernel.Proc

open Vfs (threadMaxFd)

def sigNum : ℕ := 32
def sigkill : ℕ := 9
def taskExited : ℕ := 3

/-- `struct cpu_context`: the registers `x19` to `x28`, and those with names. -/
structure CpuContext where
  saved : Fin 10 → BitVec 64
  fp : BitVec 64
  lr : BitVec 64
  sp : BitVec 64

structure ThreadTask where
  cpuContext : CpuContext
  id : ℕ
  state : ℕ
  counter : ℕ
  priority : ℕ
  preemptCount : ℕ
  kernelStack : ℕ
  userStack : ℕ
  pendingSig : BitVec 32
  sigHandlers : Fin sigNum → BitVec 64
  sigFrame : BitVec 64
  cwd : ℕ
  fdTable : Fin threadMaxFd → ℕ
  next : ℕ

/-- The 34 words of `struct TrapFrame`: the registers `x`, then `sp_el0`, `spsr_el1` and `elr_el1`. -/
abbrev TrapFrame := Fin 34 → BitVec 64

instance TrapFrame.instNeZero : NeZero 34 := ⟨by decide⟩

/-- A control block with the words that follow it in its page, as far as a trap frame reaches. -/
structure Block where
  task : ThreadTask
  slack : Fin 15 → BitVec 64

namespace Block

def area (b : Block) : TrapFrame := fun i =>
  if i.val = 0 then b.task.sigFrame
  else if i.val = 1 then BitVec.ofNat 64 b.task.cwd
  else if h : i.val < 18 then BitVec.ofNat 64 (b.task.fdTable ⟨i.val - 2, by rw [threadMaxFd]; omega⟩)
  else if i.val = 18 then BitVec.ofNat 64 b.task.next
  else b.slack ⟨i.val - 19, by omega⟩

def setArea (b : Block) (f : TrapFrame) : Block where
  task :=
    { b.task with
      sigFrame := f 0
      cwd := (f 1).toNat
      fdTable := fun i => (f ⟨i.val + 2, by have hi : i.val < 16 := i.isLt; omega⟩).toNat
      next := (f 18).toNat }
  slack := fun i => f ⟨i.val + 19, by omega⟩

theorem area_setArea (b : Block) (f : TrapFrame) : (b.setArea f).area = f := by
  funext i
  rw [area]
  split_ifs with h0 h1 h18 h2
  · exact congrArg f (Fin.ext h0.symm)
  · rw [setArea, BitVec.ofNat_toNat, BitVec.setWidth_eq]
    exact congrArg f (Fin.ext h1.symm)
  · rw [setArea, BitVec.ofNat_toNat, BitVec.setWidth_eq]
    refine congrArg f (Fin.ext ?_)
    dsimp only
    omega
  · rw [setArea, BitVec.ofNat_toNat, BitVec.setWidth_eq]
    exact congrArg f (Fin.ext h2.symm)
  · refine congrArg f (Fin.ext ?_)
    dsimp only
    omega

/-- The area is apart from `cpu_context`. -/
theorem area_withContext (b : Block) (c : CpuContext) :
    area { b with task := { b.task with cpuContext := c } } = b.area := rfl

end Block

@[ext]
structure Fields where
  cwd : BitVec 64
  fdTable : Fin threadMaxFd → BitVec 64
  next : BitVec 64

def Block.fields (b : Block) : Fields :=
  ⟨.ofNat 64 b.task.cwd, fun i => .ofNat 64 (b.task.fdTable i), .ofNat 64 b.task.next⟩

def frameFields (f : TrapFrame) : Fields :=
  ⟨f 1, fun i => f ⟨i.val + 2, by have hi : i.val < 16 := i.isLt; omega⟩, f 18⟩

def frameSlack (f : TrapFrame) (i : Fin 15) : BitVec 64 := f ⟨i.val + 19, by omega⟩

theorem Block.area_eq_iff (b : Block) (f : TrapFrame) :
    b.area = f ↔ b.task.sigFrame = f 0 ∧ b.fields = frameFields f ∧ b.slack = frameSlack f := by
  constructor
  · rintro rfl
    refine ⟨rfl, Fields.ext rfl (funext fun i => ?_) rfl, funext fun i => ?_⟩
    · have hi : i.val < 16 := i.isLt
      have h0 : i.val + 2 ≠ 0 := by omega
      have h1 : i.val + 2 ≠ 1 := by omega
      have h18 : i.val + 2 < 18 := by omega
      simp only [Block.fields, frameFields, area, if_neg h0, if_neg h1, dif_pos h18, Nat.add_sub_cancel]
    · have h0 : i.val + 19 ≠ 0 := by omega
      have h1 : i.val + 19 ≠ 1 := by omega
      have h18 : ¬ i.val + 19 < 18 := by omega
      have h2 : i.val + 19 ≠ 18 := by omega
      simp only [frameSlack, area, if_neg h0, if_neg h1, dif_neg h18, if_neg h2, Nat.add_sub_cancel]
  · rintro ⟨hsig, hfields, hslack⟩
    funext i
    rw [area]
    split_ifs with h0 h1 h18 h2
    · rw [hsig]
      exact congrArg f (Fin.ext h0.symm)
    · change b.fields.cwd = f i
      rw [hfields]
      exact congrArg f (Fin.ext h1.symm)
    · change b.fields.fdTable ⟨i.val - 2, _⟩ = f i
      rw [hfields]
      refine congrArg f (Fin.ext ?_)
      dsimp only
      omega
    · change b.fields.next = f i
      rw [hfields]
      exact congrArg f (Fin.ext h2.symm)
    · rw [hslack]
      refine congrArg f (Fin.ext ?_)
      dsimp only
      omega

end OscKernel.Proc
