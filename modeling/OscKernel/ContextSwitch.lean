import OscKernel.ControlBlock
import OscKernel.RoundRobin

/-!
# Context switches

The scheduler together with the registers. `schedule` ends in `cpu_switch_to`, which saves the registers of
the thread that is left in its control block and loads those of the next one. What other threads do in
between, created, ended and reaped ones included, does not reach them: the block stays the thread's own.
-/

namespace OscKernel.Sched

open Linked Relation Runs
open Proc (CpuContext)
open Vfs (threadStackSize)

/-- The registers that a context switch saves, and the field `cpu_context` of the control blocks. -/
structure Cpu where
  sched : State
  regs : CpuContext
  context : ℕ → CpuContext

/-- What a thread does: it computes, `handle_signal` writes to its `cpu_context`, or it calls the scheduler.
The callback is that of `thread_create`, and `sp` the stack pointer in `sys_fork`. -/
inductive CpuAct where
  | compute (regs : CpuContext)
  | signal (context : CpuContext)
  | call (a : Act) (callback sp forkEnd : BitVec 64)

def startContext (callback : BitVec 64) (userStack : ℕ) : CpuContext :=
  { saved := fun _ => 0
    lr := callback
    sp := .ofNat 64 (userStack + threadStackSize)
    fp := .ofNat 64 (userStack + threadStackSize) }

namespace Cpu

def forkContext (c : Cpu) (parent kernelStack : ℕ) (sp forkEnd : BitVec 64) : CpuContext :=
  { c.context parent with
    sp := .ofNat 64 kernelStack + (sp - .ofNat 64 (c.sched.tasks parent).kernelStack)
    lr := forkEnd }

def switchTo (c : Cpu) (s : State) : Cpu :=
  match c.sched.current, s.current with
  | some prev, some next =>
      if prev = next then { c with sched := s }
      else ⟨s, c.context next, Function.update c.context prev c.regs⟩
  | _, _ => { c with sched := s }

def setContext (c : Cpu) (t : ℕ) (context : CpuContext) : Cpu :=
  { c with context := Function.update c.context t context }

def call (c : Cpu) (s : State) (callback sp forkEnd : BitVec 64) : Act → Cpu
  | .create t _ u => { c.setContext t (startContext callback u) with sched := s }
  | .fork t k _ =>
      match c.sched.current with
      | none => { c with sched := s }
      | some parent => { c.setContext t (c.forkContext parent k sp forkEnd) with sched := s }
  | .jump t k u =>
      { c.setContext t (startContext callback u) with
        sched := s
        regs := { c.regs with sp := .ofNat 64 (k + threadStackSize) } }
  | .schedule | .exit | .kill _ => c.switchTo s
  | .reap => { c with sched := s }

inductive Does (c : Cpu) : CpuAct → Cpu → Prop
  | compute (regs : CpuContext) : Does c (.compute regs) { c with regs := regs }
  | signal (t : ℕ) (context : CpuContext) : c.sched.current = some t →
      Does c (.signal context) (c.setContext t context)
  | call {a : Act} {s : State} (callback sp forkEnd : BitVec 64) : Step c.sched a s →
      Does c (.call a callback sp forkEnd) (c.call s callback sp forkEnd a)

end Cpu

def CpuAct.Kills (s : State) (t : ℕ) : CpuAct → Prop
  | .call a _ _ _ => s.killed a = some t
  | _ => False

def CpuAct.Schedules (i : CpuAct) : Prop :=
  ∃ a callback sp forkEnd, i = .call a callback sp forkEnd ∧
    (a = .schedule ∨ a = .exit ∨ ∃ pid, a = .kill pid)

/-- The step frees no block of a thread for what the boot has left on its stack. -/
def CpuAct.Harmless (s : State) : CpuAct → Prop
  | .call a _ _ _ => a = .reap → BootHarmless s
  | _ => True

def Cpu.Safely (c : Cpu) (i : CpuAct) (c' : Cpu) : Prop := i.Harmless c.sched ∧ c.Does i c'

def Cpu.Passes (t : ℕ) (c : Cpu) (i : CpuAct) (c' : Cpu) : Prop :=
  c.Safely i c' ∧ c'.sched.current ≠ some t ∧ ¬ i.Kills c.sched t

def Cpu.Holds (c : Cpu) (t : ℕ) (r : CpuContext) : Prop :=
  (∃ rq zq, Inv c.sched rq zq ∧ t ∈ rq) ∧ c.sched.current ≠ some t ∧ c.context t = r

variable {c c' c₀ c₁ c₂ c₃ : Cpu} {s s' : State} {rq zq : List ℕ} {t : ℕ} {i : CpuAct} {a : Act}
  {l l₀ : List CpuAct} {r : CpuContext} {callback sp forkEnd : BitVec 64}

theorem Inv.ready_scheduled (h : Inv s rq zq) (ht : t ∈ rq) (heq : s.schedule = some s')
    (hcur : s'.current ≠ some t) : ∃ rq' zq', Inv s' rq' zq' ∧ t ∈ rq' := by
  obtain ⟨d, hd, -⟩ := h.current
  rcases h.schedule_cases hd with ⟨hstay, -⟩ | ⟨s₁, n, rest, rfl, -, heq₁, hcur₁, hinv, -⟩
  · obtain rfl := Option.some.inj (heq.symm.trans hstay)
    exact ⟨rq, zq, h, ht⟩
  · obtain rfl := Option.some.inj (heq.symm.trans heq₁)
    have htn : t ≠ n := fun h => hcur (h ▸ hcur₁)
    have hrest := (List.mem_cons.1 ht).resolve_left htn
    refine ⟨_, _, hinv, ?_⟩
    rw [requeue]
    split_ifs
    · exact List.mem_append_left _ hrest
    · exact hrest

/-- A thread on the ready queue stays there until it is selected or killed. -/
theorem Inv.ready_kept (h : Inv s rq zq) (ht : t ∈ rq) (hcur : s.current ≠ some t) (hstep : Step s a s')
    (hboot : a = .reap → BootHarmless s) (hcur' : s'.current ≠ some t) (hkill : s.killed a ≠ some t) :
    ∃ rq' zq', Inv s' rq' zq' ∧ t ∈ rq' := by
  cases h.outcome hstep hboot with
  | create hact hinv hsame htc => exact ⟨_, _, hinv, List.mem_append_left _ ht⟩
  | jump hinv hsame htc => exact ⟨_, _, hinv, List.mem_append_left _ ht⟩
  | schedule heq => exact h.ready_scheduled ht heq hcur'
  | leave hact hc hinv hsame heq =>
      have hne : t ≠ _ := fun h => hcur (h ▸ hc)
      exact hinv.ready_scheduled ((List.mem_erase_of_ne hne).2 ht) heq hcur'
  | miss hfind => exact ⟨rq, zq, h, ht⟩
  | kill hfind hne hinv hsame hsame' =>
      have htk : t ≠ _ := fun h => hkill (by rw [State.killed, hfind, h]; rfl)
      exact ⟨_, _, hinv, (List.mem_erase_of_ne htk).2 ht⟩
  | reap heq hinv hc htasks hcells => exact ⟨rq, _, hinv, ht⟩

/-- The block of a new thread is not that of a thread in use. -/
theorem Inv.ne_fresh {k u n : ℕ} (h : Inv s rq zq) (ht : t ∈ s.cells) (hf : Fresh s.live n k u) : t ≠ n :=
  ne_of_mem_of_not_mem (h.blocks.used t ht t (mem_blocksOf s t)) hf.unused.1

theorem switchTo_context (hcur : c.sched.current ≠ some t) : (c.switchTo s).context t = c.context t := by
  rw [Cpu.switchTo]
  cases hprev : c.sched.current with
  | none => rfl
  | some prev =>
      cases s.current with
      | none => rfl
      | some next =>
          dsimp only
          split_ifs
          · rfl
          · exact Function.update_of_ne (fun heq : t = prev => hcur (hprev.trans (congrArg some heq.symm))) ..

/-- A call writes to the block of a new thread, and to that of the thread that is left. -/
theorem Inv.call_context (h : Inv c.sched rq zq) (ht : t ∈ c.sched.cells) (hcur : c.sched.current ≠ some t)
    (hvalid : c.sched.Valid a) : (c.call s callback sp forkEnd a).context t = c.context t := by
  cases a with
  | create n k u => exact Function.update_of_ne (h.ne_fresh ht hvalid) ..
  | fork n k u =>
      rw [Cpu.call]
      cases c.sched.current with
      | none => rfl
      | some parent => exact Function.update_of_ne (h.ne_fresh ht hvalid) ..
  | jump n k u => exact Function.update_of_ne (h.ne_fresh ht hvalid) ..
  | schedule => exact switchTo_context hcur
  | exit => exact switchTo_context hcur
  | kill pid => exact switchTo_context hcur
  | reap => rfl

theorem call_sched (c : Cpu) (s : State) (callback sp forkEnd : BitVec 64) (a : Act) :
    (c.call s callback sp forkEnd a).sched = s := by
  have hswitch : (c.switchTo s).sched = s := by
    rw [Cpu.switchTo]
    split
    · split_ifs <;> rfl
    · rfl
  cases a with
  | fork n k u =>
      rw [Cpu.call]
      split <;> rfl
  | schedule => exact hswitch
  | exit => exact hswitch
  | kill pid => exact hswitch
  | _ => rfl

theorem Cpu.Holds.passes (h : c.Holds t r) (hp : c.Passes t i c') : c'.Holds t r := by
  obtain ⟨⟨rq, zq, hinv, ht⟩, hcur, hr⟩ := h
  obtain ⟨⟨hharm, hdoes⟩, hcur', hkill⟩ := hp
  refine ⟨?_, hcur', ?_⟩
  · cases hdoes with
    | compute regs => exact ⟨rq, zq, hinv, ht⟩
    | signal n context hn => exact ⟨rq, zq, hinv, ht⟩
    | call callback sp forkEnd hstep =>
        rw [call_sched] at hcur' ⊢
        exact hinv.ready_kept ht hcur hstep hharm hcur' hkill
  · cases hdoes with
    | compute regs => exact hr
    | signal n context hn =>
        have hne : t ≠ n := fun heq => hcur (hn.trans (congrArg some heq.symm))
        exact (Function.update_of_ne hne ..).trans hr
    | call callback sp forkEnd hstep =>
        exact (hinv.call_context (hinv.ready_mem ht) hcur hstep.1).trans hr

theorem CpuAct.Schedules.switchTo (h : i.Schedules) (hdoes : c.Does i c') : c' = c.switchTo c'.sched := by
  obtain ⟨a, callback, sp, forkEnd, rfl, ha⟩ := h
  cases hdoes with
  | call =>
      rw [call_sched]
      rcases ha with rfl | rfl | ⟨pid, rfl⟩ <;> rfl

/-- Only `schedule` gives a thread that waits the processor. -/
theorem Cpu.Holds.back_schedules (h : c.Holds t r) (hsafe : c.Safely i c')
    (hcur' : c'.sched.current = some t) : i.Schedules := by
  obtain ⟨⟨rq, zq, hinv, ht⟩, hcur, -⟩ := h
  obtain ⟨hharm, hdoes⟩ := hsafe
  cases hdoes with
  | compute regs => exact absurd hcur' hcur
  | signal n context hn => exact absurd hcur' hcur
  | @call a s callback sp forkEnd hstep =>
      rw [call_sched] at hcur'
      have hchanged : s.current ≠ c.sched.current := fun h => hcur (h.symm.trans hcur')
      refine ⟨a, callback, sp, forkEnd, rfl, ?_⟩
      cases hinv.outcome hstep hharm with
      | create hact hinv' hs htc => exact absurd hs.current hchanged
      | jump hinv' hs htc =>
          exact absurd (Option.some.inj hcur').symm (hinv.ne_fresh (hinv.ready_mem ht) hstep.1)
      | schedule => exact Or.inl rfl
      | leave hact =>
          rcases hact with rfl | ⟨pid, rfl, -⟩
          · exact Or.inr (Or.inl rfl)
          · exact Or.inr (Or.inr ⟨pid, rfl⟩)
      | miss => exact absurd rfl hchanged
      | @kill pid => exact Or.inr (Or.inr ⟨pid, rfl⟩)
      | reap heq hinv' hc => exact absurd hc hchanged

/-- The switch to a thread that waits loads its registers. -/
theorem Cpu.Holds.back (h : c.Holds t r) (hsafe : c.Safely i c') (hcur' : c'.sched.current = some t) :
    c'.regs = r := by
  rw [(h.back_schedules hsafe hcur').switchTo hsafe.2]
  obtain ⟨⟨rq, zq, hinv, ht⟩, hcur, hr⟩ := h
  obtain ⟨d, hd, -⟩ := hinv.current
  have hne : ¬ d = t := fun h => hcur (h ▸ hd)
  rw [Cpu.switchTo, hd, hcur']
  simp only [if_neg hne]
  exact hr

theorem Cpu.Safely.inv (hsafe : c.Safely i c') (h : ∃ rq zq, Inv c.sched rq zq) :
    ∃ rq zq, Inv c'.sched rq zq := by
  obtain ⟨rq, zq, hinv⟩ := h
  obtain ⟨hharm, hdoes⟩ := hsafe
  cases hdoes with
  | compute regs => exact ⟨rq, zq, hinv⟩
  | signal n context hn => exact ⟨rq, zq, hinv⟩
  | call callback sp forkEnd hstep =>
      rw [call_sched]
      exact hinv.of_step hstep hharm

theorem Cpu.Holds.run (h : c.Holds t r) (hrun : Trace (Cpu.Passes t) c l c') : c'.Holds t r := by
  induction hrun with
  | nil => exact h
  | snoc _ hp ih => exact ih.passes hp

end OscKernel.Sched
