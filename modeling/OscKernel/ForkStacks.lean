import OscKernel.Fork

/-!
# The stacks of a child

`sys_fork` copies both stacks and then the trap frame once more, which is there already. In the copy the call
returns `0`, and the stack pointer of user mode is moved to the stack of the child.
-/

namespace OscKernel.Proc

open Vfs (threadStackSize sizeofTrapFrame)
open ByteOrder (word setWord bytes)

variable {m : ByteMem} {kernelStack userStack : ℕ} {parent : ThreadTask}

/-- The kernel stack of the child: that of the parent, except for the return value and the stack pointer. -/
def childKernelStack (stack : List UInt8) (spEl0 : ℕ) (parent : ThreadTask) (userStack : ℕ) (e : Entry) :
    List UInt8 :=
  ByteMem.splice (ByteMem.splice stack e.frame (bytes 8 0)) (e.frame + spEl0Offset)
    (bytes 8 (rebase userStack parent.userStack spEl0))

structure StacksApart (parent : ThreadTask) (kernelStack userStack : ℕ) : Prop where
  user : Vfs.Apart userStack threadStackSize (parent.userStack, threadStackSize)
  userKernel : Vfs.Apart userStack threadStackSize (parent.kernelStack, threadStackSize)
  kernel : Vfs.Apart kernelStack threadStackSize (parent.kernelStack, threadStackSize)
  own : Vfs.Apart kernelStack threadStackSize (userStack, threadStackSize)

/-- Copying bytes that are there already changes nothing. -/
theorem copy_self {a b n : ℕ} (hap : a + n ≤ b ∨ b + n ≤ a) (h : m.read a n = m.read b n) :
    m.copy a b n = m := by
  funext x
  by_cases hx : x < a ∨ a + n ≤ x
  · exact ByteMem.copy_outside m n a b hx
  · have hread : (m.copy a b n).read a n = m.read a n := by
      rw [ByteMem.read_copy m n a b (by omega), h]
    have hat := congrArg (fun l => l[x - a]?) hread
    simp only [ByteMem.read_getElem? _ _ _ (show x - a < n by omega)] at hat
    rw [Nat.add_sub_cancel' (by omega)] at hat
    exact Option.some.inj hat

theorem splice_bytes {a pos size v : ℕ} (h : pos + 8 ≤ size) :
    (setWord m (a + pos) v).read a size = ByteMem.splice (m.read a size) pos (bytes 8 v) := by
  have hsplice := ByteMem.read_write_splice m a (bytes 8 v) (by omega : pos ≤ size)
  rwa [ByteOrder.bytes_length, max_eq_left h] at hsplice

theorem copyStacks_outside {x : ℕ} (hk : x < kernelStack ∨ kernelStack + threadStackSize ≤ x)
    (hu : x < userStack ∨ userStack + threadStackSize ≤ x) :
    copyStacks m parent kernelStack userStack x = m x := by
  rw [copyStacks, ByteMem.copy_outside _ _ _ _ hk, ByteMem.copy_outside _ _ _ _ hu]

theorem copyStacks_user (hap : StacksApart parent kernelStack userStack) :
    (copyStacks m parent kernelStack userStack).read userStack threadStackSize =
      m.read parent.userStack threadStackSize := by
  have hown := hap.own
  have huser := hap.user
  simp only [Vfs.Apart] at hown huser
  rw [copyStacks, ← ByteMem.read_copy m threadStackSize userStack parent.userStack (by omega)]
  exact ByteMem.read_congr _ _ fun x hlo hhi => ByteMem.copy_outside _ _ _ _ (by omega)

theorem copyStacks_kernel (hap : StacksApart parent kernelStack userStack) :
    (copyStacks m parent kernelStack userStack).read kernelStack threadStackSize =
      m.read parent.kernelStack threadStackSize := by
  have hkernel := hap.kernel
  have huser := hap.userKernel
  simp only [Vfs.Apart] at hkernel huser
  rw [copyStacks, ByteMem.read_copy _ _ _ _ (by omega)]
  exact ByteMem.read_congr _ _ fun x hlo hhi => ByteMem.copy_outside _ _ _ _ (by omega)

theorem StacksApart.parent_outside (hap : StacksApart parent kernelStack userStack) {x : ℕ}
    (hlo : parent.kernelStack ≤ x) (hhi : x < parent.kernelStack + threadStackSize) :
    copyStacks m parent kernelStack userStack x = m x := by
  have hkernel := hap.kernel
  have huser := hap.userKernel
  simp only [Vfs.Apart] at hkernel huser
  exact copyStacks_outside (by omega) (by omega)

/-- The trap frame in the copy of the kernel stack is that of the parent. -/
theorem copyStacks_frame (hap : StacksApart parent kernelStack userStack) (e : Entry) :
    (copyStacks m parent kernelStack userStack).copy (kernelStack + e.frame) (parent.kernelStack + e.frame)
      sizeofTrapFrame = copyStacks m parent kernelStack userStack := by
  have hfits := e.fits
  have hkernel := hap.kernel
  simp only [Vfs.Apart] at hkernel
  refine copy_self (by omega) ?_
  have hparent : (copyStacks m parent kernelStack userStack).read parent.kernelStack threadStackSize =
      m.read parent.kernelStack threadStackSize :=
    ByteMem.read_congr _ _ fun x hlo hhi => hap.parent_outside hlo hhi
  have hslice := congrArg (fun l => (l.drop e.frame).take sizeofTrapFrame)
    ((copyStacks_kernel hap).trans hparent.symm)
  simp only [ByteMem.slice_read] at hslice
  rwa [min_eq_left (by omega)] at hslice

theorem forkStacks_eq (hap : StacksApart parent kernelStack userStack) (e : Entry) :
    forkStacks m parent kernelStack userStack e =
      setWord (setWord (copyStacks m parent kernelStack userStack) (kernelStack + e.frame) 0)
        (kernelStack + e.frame + spEl0Offset)
        (rebase userStack parent.userStack (word m (parent.kernelStack + e.frame + spEl0Offset))) := by
  have hfits := e.fits
  have hspEl0 : spEl0Offset + 8 ≤ sizeofTrapFrame := by decide
  have hkernel := hap.kernel
  simp only [Vfs.Apart] at hkernel
  have hword : word (setWord (copyStacks m parent kernelStack userStack) (kernelStack + e.frame) 0)
      (parent.kernelStack + e.frame + spEl0Offset) = word m (parent.kernelStack + e.frame + spEl0Offset) := by
    rw [ByteOrder.word_setWord_apart (by omega)]
    exact ByteOrder.word_congr fun x hlo hhi => hap.parent_outside (by omega) (by omega)
  dsimp only [forkStacks]
  rw [copyStacks_frame hap e, hword]

theorem forkStacks_kernel (hap : StacksApart parent kernelStack userStack) (e : Entry) :
    (forkStacks m parent kernelStack userStack e).read kernelStack threadStackSize =
      childKernelStack (m.read parent.kernelStack threadStackSize)
        (word m (parent.kernelStack + e.frame + spEl0Offset)) parent userStack e := by
  have hfits := e.fits
  have hspEl0 : spEl0Offset + 8 ≤ sizeofTrapFrame := by decide
  rw [forkStacks_eq hap, Nat.add_assoc kernelStack, splice_bytes (by omega), splice_bytes (by omega),
    childKernelStack, copyStacks_kernel hap]

theorem forkStacks_user (hap : StacksApart parent kernelStack userStack) (e : Entry) :
    (forkStacks m parent kernelStack userStack e).read userStack threadStackSize =
      m.read parent.userStack threadStackSize := by
  have hfits := e.fits
  have hspEl0 : spEl0Offset + 8 ≤ sizeofTrapFrame := by decide
  have hown := hap.own
  simp only [Vfs.Apart] at hown
  rw [forkStacks_eq hap, ← copyStacks_user (m := m) hap]
  refine ByteMem.read_congr _ _ fun x hlo hhi => ?_
  rw [ByteOrder.setWord_outside (by omega), ByteOrder.setWord_outside (by omega)]

end OscKernel.Proc
