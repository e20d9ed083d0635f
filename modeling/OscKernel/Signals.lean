import OscKernel.ControlBlock

/-!
# Signals

`signal.c` with `sys_sigreturn`, and the context switch of `sched_asm.S`. The registers of the machine are
those that a context switch saves, and a trap frame is passed by value. A custom handler is entered in user
mode, from where `handle_signal` does not return.
-/

namespace OscKernel.Proc

open Vfs (threadStackSize)

structure Symbols where
  defaultHandler : BitVec 64
  defaultSigkillHandler : BitVec 64
  sighanderUserWrapper : BitVec 64

structure Machine where
  heap : Vfs.Heap
  blocks : ℕ → Block
  regs : CpuContext
  current : ℕ

namespace Machine

def setBlock (s : Machine) (t : ℕ) (f : Block → Block) : Machine :=
  { s with blocks := Function.update s.blocks t (f (s.blocks t)) }

def setTask (s : Machine) (t : ℕ) (f : ThreadTask → ThreadTask) : Machine :=
  s.setBlock t fun b => { b with task := f b.task }

def context (s : Machine) (t : ℕ) : CpuContext := (s.blocks t).task.cpuContext

def setContext (s : Machine) (t : ℕ) (c : CpuContext) : Machine :=
  s.setTask t fun b => { b with cpuContext := c }

theorem context_setContext_self (s : Machine) (t : ℕ) (c : CpuContext) :
    (s.setContext t c).context t = c := by
  change (Function.update s.blocks t _ t).task.cpuContext = c
  rw [Function.update_self]

theorem context_setContext_of_ne (s : Machine) {t u : ℕ} (c : CpuContext) (h : u ≠ t) :
    (s.setContext t c).context u = s.context u := by
  change (Function.update s.blocks t _ u).task.cpuContext = _
  rw [Function.update_of_ne h]
  rfl

def cpuSwitchTo (s : Machine) (prev next : ℕ) : Machine :=
  let s := s.setContext prev s.regs
  { s with regs := s.context next, current := next }

/-- What the `eret` of `handle_signal` sets: the program counter, the stack pointer and `x0`. -/
structure UserEntry where
  elr : BitVec 64
  sp : BitVec 64
  x0 : BitVec 64

/-- A custom handler does not come back to the caller, nor does `default_sigkill_handler`, whose `_exit` comes
back only where no other thread is ready. -/
inductive Outcome where
  | returned
  | exited
  | entered (u : UserEntry)

def handlerContext (k : Symbols) (c : CpuContext) (stack : ℕ) : CpuContext :=
  { c with
    sp := BitVec.ofNat 64 (stack + threadStackSize)
    fp := BitVec.ofNat 64 (stack + threadStackSize)
    lr := k.sighanderUserWrapper }

/-- The branch of `handle_signal` for a custom handler. -/
def enterHandler (k : Symbols) (s : Machine) (task : ℕ) (handler : BitVec 64) (frame : TrapFrame) :
    Machine × Outcome :=
  let s := s.setBlock task fun b => b.setArea frame
  let (heap, stack) := s.heap.alloc threadStackSize
  let s := { s with heap }.setTask task fun b =>
    { b with cpuContext := handlerContext k b.cpuContext stack }
  let c := s.context task
  (s, .entered ⟨c.lr, c.sp, handler⟩)

def handleSignal (k : Symbols) (s : Machine) (task : ℕ) (sig : ℤ) (frame : TrapFrame) :
    Machine × Outcome :=
  if h : sig < 0 ∨ sig ≥ sigNum then (s, .returned)
  else
    let handler := (s.blocks task).task.sigHandlers ⟨sig.toNat, by omega⟩
    if handler = 0 then (s, .returned)
    else if handler = k.defaultHandler then (s, .returned)
    else if handler = k.defaultSigkillHandler then
      (s.setTask task fun b => { b with state := taskExited }, .exited)
    else s.enterHandler k task handler frame

/-- `sys_sigreturn`, with the address that it passes to `free` and the trap frame that it restores. -/
def sysSigreturn (s : Machine) : Machine × Option (BitVec 64 × TrapFrame) :=
  if s.current = 0 then (s, none)
  else
    let stack := (s.context s.current).fp - BitVec.ofNat 64 threadStackSize
    ({ s with heap := s.heap.free stack.toNat }, some (stack, (s.blocks s.current).area))

def Delivers (k : Symbols) (s : Machine) (task : ℕ) (sig : ℤ) (frame : TrapFrame) (s' : Machine) : Prop :=
  ∃ u, handleSignal k s task sig frame = (s', .entered u)

variable {k : Symbols} {s s' : Machine} {task : ℕ} {sig : ℤ} {frame : TrapFrame}

theorem handleSignal_cases (k : Symbols) (s : Machine) (task : ℕ) (sig : ℤ) (frame : TrapFrame) :
    handleSignal k s task sig frame = (s, .returned) ∨
      handleSignal k s task sig frame =
        (s.setTask task fun b => { b with state := taskExited }, .exited) ∨
      ∃ handler, handleSignal k s task sig frame = s.enterHandler k task handler frame := by
  rw [handleSignal]
  by_cases hsig : sig < 0 ∨ sig ≥ sigNum
  · exact Or.inl (dif_pos hsig)
  rw [dif_neg hsig]
  dsimp only
  by_cases hnull : (s.blocks task).task.sigHandlers ⟨sig.toNat, by omega⟩ = 0
  · exact Or.inl (if_pos hnull)
  rw [if_neg hnull]
  by_cases hdefault : (s.blocks task).task.sigHandlers ⟨sig.toNat, by omega⟩ = k.defaultHandler
  · exact Or.inl (if_pos hdefault)
  rw [if_neg hdefault]
  by_cases hkill : (s.blocks task).task.sigHandlers ⟨sig.toNat, by omega⟩ = k.defaultSigkillHandler
  · exact Or.inr (Or.inl (if_pos hkill))
  · exact Or.inr (Or.inr ⟨_, if_neg hkill⟩)

def Custom (k : Symbols) (handler : BitVec 64) : Prop :=
  handler ≠ 0 ∧ handler ≠ k.defaultHandler ∧ handler ≠ k.defaultSigkillHandler

instance (k : Symbols) (handler : BitVec 64) : Decidable (Custom k handler) :=
  inferInstanceAs (Decidable (_ ∧ _))

theorem handleSignal_fin (k : Symbols) (s : Machine) (task : ℕ) (i : Fin sigNum) (frame : TrapFrame) :
    handleSignal k s task (i : ℕ) frame =
      if (s.blocks task).task.sigHandlers i = 0 then (s, .returned)
      else if (s.blocks task).task.sigHandlers i = k.defaultHandler then (s, .returned)
      else if (s.blocks task).task.sigHandlers i = k.defaultSigkillHandler then
        (s.setTask task fun b => { b with state := taskExited }, .exited)
      else s.enterHandler k task ((s.blocks task).task.sigHandlers i) frame := by
  have hi : i.val < 32 := i.isLt
  have hsig : ¬ ((i.val : ℤ) < 0 ∨ (i.val : ℤ) ≥ sigNum) := by
    change ¬ ((i.val : ℤ) < 0 ∨ (i.val : ℤ) ≥ ((32 : ℕ) : ℤ))
    omega
  rw [handleSignal, dif_neg hsig]
  rfl

theorem delivers_custom {i : Fin sigNum} (h : Custom k ((s.blocks task).task.sigHandlers i)) :
    Delivers k s task (i : ℕ) frame
      (s.enterHandler k task ((s.blocks task).task.sigHandlers i) frame).1 := by
  rw [Delivers, handleSignal_fin, if_neg h.1, if_neg h.2.1, if_neg h.2.2, enterHandler]
  exact ⟨_, rfl⟩

theorem Delivers.enters (h : Delivers k s task sig frame s') :
    ∃ handler, s' = (s.enterHandler k task handler frame).1 := by
  obtain ⟨u, hu⟩ := h
  rcases handleSignal_cases k s task sig frame with heq | heq | ⟨handler, heq⟩
  · rw [heq] at hu
    cases hu
  · rw [heq] at hu
    cases hu
  · rw [heq] at hu
    exact ⟨handler, (congrArg Prod.fst hu).symm⟩

theorem enterHandler_block (k : Symbols) (s : Machine) (task : ℕ) (handler : BitVec 64)
    (frame : TrapFrame) :
    (s.enterHandler k task handler frame).1.blocks task =
      { (s.blocks task).setArea frame with
        task :=
          { ((s.blocks task).setArea frame).task with
            cpuContext := handlerContext k (s.context task) (s.heap.alloc threadStackSize).2 } } := by
  rw [enterHandler]
  simp only [setTask, setBlock, Function.update_self, Function.update_idem]
  rfl

/-- What a delivery leaves behind: the trap frame in the block of the task, and the handler's stack in
`cpu_context`. -/
theorem Delivers.spec (h : Delivers k s task sig frame s') :
    (s'.blocks task).area = frame ∧
      (s'.context task).fp = BitVec.ofNat 64 ((s.heap.alloc threadStackSize).2 + threadStackSize) := by
  obtain ⟨handler, rfl⟩ := h.enters
  rw [context, enterHandler_block, Block.area_withContext, Block.area_setArea]
  exact ⟨rfl, rfl⟩

end Machine

end OscKernel.Proc
