import OscKernel.Signals

/-!
# The stack of a signal handler

`handle_signal` remembers the stack that it allocates only as `cpu_context.fp`, and a context switch away
from the task stores the register `fp` there. `sys_sigreturn` frees the right block exactly when no such
store has come in between, or the last one has stored the top of the stack.
-/

namespace OscKernel.Proc

open Vfs (threadStackSize Heap)

namespace Machine

/-- What happens between the delivery and the return: the task that is current computes, the processor is
switched to another task, and the tasks use the heap. -/
inductive Act where
  | exec (regs : CpuContext)
  | switch (next : ℕ)
  | alloc (size : ℕ)
  | free (p : ℕ)

def act (s : Machine) : Act → Machine
  | .exec regs => { s with regs := regs }
  | .switch next => s.cpuSwitchTo s.current next
  | .alloc size => { s with heap := (s.heap.alloc size).1 }
  | .free p => { s with heap := s.heap.free p }

def acts (s : Machine) (l : List Act) : Machine := l.foldl act s

def Act.frees : Act → Option ℕ
  | .free p => some p
  | _ => none

def stored (t : ℕ) (s : Machine) : Act → Option (BitVec 64)
  | .switch _ => if s.current = t then some s.regs.fp else none
  | _ => none

def lastStored (t : ℕ) : Machine → List Act → Option (BitVec 64)
  | _, [] => none
  | s, a :: l => (lastStored t (s.act a) l).or (s.stored t a)

variable {k : Symbols} {s s' s₁ : Machine} {t task : ℕ} {sig : ℤ} {frame : TrapFrame} {l : List Act}

theorem cpuSwitchTo_context (s : Machine) (prev next t : ℕ) :
    (s.cpuSwitchTo prev next).context t = if prev = t then s.regs else s.context t := by
  by_cases ht : prev = t
  · rw [if_pos ht, ← ht]
    exact s.context_setContext_self prev s.regs
  · rw [if_neg ht]
    exact s.context_setContext_of_ne s.regs (Ne.symm ht)

theorem act_fp (t : ℕ) (s : Machine) (a : Act) :
    ((s.act a).context t).fp = (s.stored t a).getD (s.context t).fp := by
  cases a with
  | exec regs => rfl
  | «switch» next =>
      rw [act, stored, cpuSwitchTo_context]
      by_cases ht : s.current = t
      · rw [if_pos ht, if_pos ht, Option.getD_some]
      · rw [if_neg ht, if_neg ht, Option.getD_none]
  | alloc size => rfl
  | free p => rfl

/-- After a run the field holds what the last switch has stored. -/
theorem acts_fp (t : ℕ) (s : Machine) (l : List Act) :
    ((s.acts l).context t).fp = (lastStored t s l).getD (s.context t).fp := by
  induction l generalizing s with
  | nil => rfl
  | cons a l ih =>
      change (((s.act a).acts l).context t).fp = _
      rw [ih, act_fp, lastStored]
      cases lastStored t (s.act a) l with
      | none => rfl
      | some fp => rfl

structure Released (stack : ℕ) (l : List Act) (before after : Machine) (addr : BitVec 64) : Prop where
  passed : addr.toNat = stack
  once : (l.filterMap Act.frees ++ [addr.toNat]).count stack = 1
  only : after.heap.live = before.heap.live.filter fun b => b.1 ≠ stack

/-- The last switch away from the task, if there is one, stores the top of the stack. -/
def KeepsTop (t stack : ℕ) (s : Machine) (l : List Act) : Prop :=
  ∀ fp ∈ lastStored t s l, fp = BitVec.ofNat 64 (stack + threadStackSize)

theorem alloc_bound (h : Heap) (size : ℕ) : (h.alloc size).2 ≤ Mm.memorySize := by
  rw [Heap.alloc]
  dsimp only
  split_ifs with hno
  · exact Nat.zero_le _
  · dsimp only
    omega

theorem top_sub (stack : ℕ) :
    BitVec.ofNat 64 (stack + threadStackSize) - BitVec.ofNat 64 threadStackSize = BitVec.ofNat 64 stack := by
  rw [BitVec.ofNat_add, BitVec.add_sub_cancel]

theorem keepsTop_iff {stack : ℕ} (hfp : (s.context t).fp = BitVec.ofNat 64 (stack + threadStackSize)) :
    KeepsTop t stack s l ↔
      ((s.acts l).context t).fp = BitVec.ofNat 64 (stack + threadStackSize) := by
  rw [acts_fp, KeepsTop]
  cases lastStored t s l with
  | none => exact iff_of_true (fun fp h => absurd h (Option.not_mem_none fp)) hfp
  | some fp =>
      rw [Option.getD_some]
      constructor
      · exact fun h => h fp rfl
      · rintro h fp' hfp'
        rw [← Option.some.inj hfp']
        exact h

theorem sysSigreturn_of_ne (h : s.current ≠ 0) :
    s.sysSigreturn =
      ({ s with
          heap := s.heap.free ((s.context s.current).fp - BitVec.ofNat 64 threadStackSize).toNat },
        some ((s.context s.current).fp - BitVec.ofNat 64 threadStackSize, (s.blocks s.current).area)) := by
  rw [sysSigreturn, if_neg h]

theorem sysSigreturn_some {addr : BitVec 64} (h : s.sysSigreturn = (s', some (addr, frame))) :
    addr = (s.context s.current).fp - BitVec.ofNat 64 threadStackSize ∧
      frame = (s.blocks s.current).area ∧ s' = { s with heap := s.heap.free addr.toNat } := by
  rw [sysSigreturn] at h
  by_cases h0 : s.current = 0
  · rw [if_pos h0] at h
    cases h
  · rw [if_neg h0] at h
    cases h
    exact ⟨rfl, rfl, rfl⟩

/-- The handler's stack is released exactly when the last context switch away from the task, if there has
been one, has stored its top in `cpu_context.fp`, and no other code has freed it. -/
theorem handler_stack_released_iff (hdel : Delivers k s task sig frame s₁)
    (hcur : (s₁.acts l).current = task) {addr : BitVec 64} {frame' : TrapFrame}
    (hret : (s₁.acts l).sysSigreturn = (s', some (addr, frame'))) :
    Released (s.heap.alloc threadStackSize).2 l (s₁.acts l) s' addr ↔
      KeepsTop task (s.heap.alloc threadStackSize).2 s₁ l ∧
        (s.heap.alloc threadStackSize).2 ∉ l.filterMap Act.frees := by
  have hbound := alloc_bound s.heap threadStackSize
  have hfp := hdel.spec.2
  obtain ⟨haddr, -, hafter⟩ := sysSigreturn_some hret
  rw [hcur] at haddr
  rw [keepsTop_iff hfp]
  generalize (s.heap.alloc threadStackSize).2 = stack at hbound ⊢
  have hlt : stack < 2 ^ 64 := lt_of_le_of_lt hbound (by rw [Mm.memorySize]; norm_num)
  constructor
  · intro h
    have hstack : addr = BitVec.ofNat 64 stack := by
      rw [← h.passed, BitVec.ofNat_toNat, BitVec.setWidth_eq]
    have honce := h.once
    rw [h.passed, List.count_append, List.count_singleton_self] at honce
    refine ⟨?_, List.count_eq_zero.1 (by omega)⟩
    rw [BitVec.ofNat_add, ← hstack, haddr, BitVec.sub_add_cancel]
  · rintro ⟨htop, hfree⟩
    have hpassed : addr.toNat = stack := by
      rw [haddr, htop, top_sub, BitVec.toNat_ofNat, Nat.mod_eq_of_lt hlt]
    refine ⟨hpassed, ?_, ?_⟩
    · rw [hpassed, List.count_append, List.count_singleton_self, List.count_eq_zero.2 hfree]
    · rw [hafter, hpassed]
      rfl

def sampleSymbols : Symbols := ⟨0x80100, 0x80200, 0x80300⟩

def zeroContext : CpuContext := ⟨fun _ => 0, 0, 0, 0⟩

def sampleBlock : Block where
  task :=
    { cpuContext := zeroContext, id := 1, state := 1, counter := 10, priority := 10, preemptCount := 1,
      kernelStack := 8192, userStack := 12288, pendingSig := 0, sigHandlers := fun _ => 0x400000,
      sigFrame := 0, cwd := 16384, fdTable := fun _ => 0, next := 0 }
  slack := fun _ => 0

/-- The task at `4096` runs, and the next page that `alloc` hands out is at `65536`. -/
def sampleMachine : Machine where
  heap := ⟨[(4096, 576), (8192, 4096), (12288, 4096)], fun _ => 65536, 0⟩
  blocks := fun _ => sampleBlock
  regs := zeroContext
  current := 4096

def sampleFrame : TrapFrame := fun i => BitVec.ofNat 64 i.val

def inHandler : Machine := (handleSignal sampleSymbols sampleMachine 4096 10 sampleFrame).1

theorem inHandler_delivers : Delivers sampleSymbols sampleMachine 4096 10 sampleFrame inHandler :=
  ⟨_, rfl⟩

/-- The handler is interrupted, with the frame pointer in the kernel stack, and goes on after another
task. -/
def preempted : List Act :=
  [.exec { zeroContext with fp := 12160 }, .switch 20480, .exec zeroContext, .switch 4096]

theorem handler_stack_released_preempted :
    ∃ s' addr frame', (inHandler.acts preempted).sysSigreturn = (s', some (addr, frame')) ∧
      (Released 65536 preempted (inHandler.acts preempted) s' addr ↔
        KeepsTop 4096 65536 inHandler preempted ∧ 65536 ∉ preempted.filterMap Act.frees) := by
  have hret : (inHandler.acts preempted).sysSigreturn = (_, some (_, _)) := rfl
  exact ⟨_, _, _, hret, handler_stack_released_iff inHandler_delivers (by decide) hret⟩

theorem handler_stack_not_released :
    Delivers sampleSymbols sampleMachine 4096 10 sampleFrame inHandler ∧
      (inHandler.acts preempted).current = 4096 ∧
      ∃ s' addr frame', (inHandler.acts preempted).sysSigreturn = (s', some (addr, frame')) ∧
        addr = 8064 ∧ (65536, threadStackSize) ∈ s'.heap.live ∧
        ¬ Released 65536 preempted (inHandler.acts preempted) s' addr := by
  refine ⟨inHandler_delivers, by decide, _, _, _, rfl, ?_, ?_, fun h => ?_⟩
  · decide
  · decide
  · exact absurd h.passed (by decide)

end Machine

end OscKernel.Proc
