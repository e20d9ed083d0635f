import OscKernel.Aarch64
import OscKernel.ContextSwitch

/-!
# The code of a context switch

The instructions of `cpu_switch_to` do what `Cpu.switchTo` says, in every run of the kernel. So for a thread
that calls it, `cpu_switch_to` is a function like any other: it comes back to the place of the call, with the
registers that a callee has to keep, even though other threads have run since.
-/

namespace OscKernel.Sched

open Aarch64 Linked Relation Runs
open Proc (CpuContext)

def saveContext : List Instr :=
  [.stp 19 20 (.x 0) (16 * 0), .stp 21 22 (.x 0) (16 * 1), .stp 23 24 (.x 0) (16 * 2),
    .stp 25 26 (.x 0) (16 * 3), .stp 27 28 (.x 0) (16 * 4), .stp 29 30 (.x 0) (16 * 5),
    .movFromSp 9, .str 9 (.x 0) (16 * 6)]

def loadContext : List Instr :=
  [.ldp 19 20 (.x 1) (16 * 0), .ldp 21 22 (.x 1) (16 * 1), .ldp 23 24 (.x 1) (16 * 2),
    .ldp 25 26 (.x 1) (16 * 3), .ldp 27 28 (.x 1) (16 * 4), .ldp 29 30 (.x 1) (16 * 5),
    .ldr 9 (.x 1) (16 * 6), .movToSp 9, .msr .tpidrEl1 1]

def afterSwitch (m : Machine) : Machine := (run (run m saveContext) loadContext).ret

def registers (m : Machine) : CpuContext :=
  { saved := fun i => m.x (Fin.ofNat 31 (19 + i)), fp := m.x 29, lr := m.x 30, sp := m.sp }

def contextWords : ℕ := 13

def contextWord (r : CpuContext) (i : ℕ) : Word :=
  if h : i < 10 then r.saved ⟨i, h⟩ else if i = 10 then r.fp else if i = 11 then r.lr else r.sp

def contextAt (mem : Word → Word) (p : Word) : CpuContext :=
  { saved := fun i => mem (slot p i), fp := mem (slot p 10), lr := mem (slot p 11), sp := mem (slot p 12) }

/-- The field `cpu_context` of a control block, which begins with it. -/
def block (t : ℕ) : Word := BitVec.ofNat 64 t

/-- The registers and the memory are as the model says. The blocks of the threads do not overlap. -/
structure Cpu.Shows (c : Cpu) (m : Machine) : Prop where
  regs : registers m = c.regs
  context : ∀ t ∈ c.sched.cells, contextAt m.mem (block t) = c.context t
  current : ∀ t, c.sched.current = some t → m.sys .tpidrEl1 = block t
  apart : ∀ t ∈ c.sched.cells, ∀ t' ∈ c.sched.cells, t ≠ t' →
    ∀ i < contextWords, ∀ j < contextWords, slot (block t) i ≠ slot (block t') j

/-- The kernel and the processor. If `schedule` has found another thread it calls `cpu_switch_to`, and the
instructions of `cpu_switch_to` are executed. What the other code does to the processor is as the model
says. -/
inductive Executes : Cpu × Machine → CpuAct → Cpu × Machine → Prop
  | switch {c c' : Cpu} {m : Machine} {i : CpuAct} {prev next : ℕ} : c.Does i c' → i.Schedules →
      c.sched.current = some prev → c'.sched.current = some next → prev ≠ next →
      m.x 0 = block prev → m.x 1 = block next → Executes (c, m) i (c', afterSwitch m)
  | other {c c' : Cpu} {m m' : Machine} {i : CpuAct} : c.Does i c' →
      ¬ (i.Schedules ∧ c.sched.current ≠ c'.sched.current) → c'.Shows m' → Executes (c, m) i (c', m')

def ExecutesSafely (s : Cpu × Machine) (i : CpuAct) (s' : Cpu × Machine) : Prop :=
  i.Harmless s.1.sched ∧ Executes s i s'

def ExecutesWithout (t : ℕ) (s : Cpu × Machine) (i : CpuAct) (s' : Cpu × Machine) : Prop :=
  ExecutesSafely s i s' ∧ s'.1.sched.current ≠ some t ∧ ¬ i.Kills s.1.sched t

variable {c c' c₀ c₁ c₂ c₃ : Cpu} {m m' m₀ m₁ m₂ m₃ : Machine} {s s' : Cpu × Machine} {rq zq : List ℕ}
  {t prev next : ℕ} {i : CpuAct} {a : Act} {l l₀ : List CpuAct} {r : CpuContext} {p q : Word}
  {callback sp forkEnd : BitVec 64} {mem : Word → Word}

theorem run_saveContext_mem (m : Machine) : (run m saveContext).mem =
    storeSlots m.mem (m.x 0) (contextWord (registers m)) contextWords := by
  have hx : (Function.update m.x 9 m.sp) 0 = m.x 0 := Function.update_of_ne (by decide) _ _
  simp only [saveContext, run, List.foldl_cons, List.foldl_nil, Instr.exec, Base.value, Machine.store,
    Machine.setX, hx, Function.update_self]
  rfl

theorem run_loadContext (m : Machine) : registers (run m loadContext) = contextAt m.mem (m.x 1) := by
  have hsaved : ∀ i : Fin 10, (run m loadContext).x (Fin.ofNat 31 (19 + i)) = m.mem (slot (m.x 1) i) := by
    intro i
    fin_cases i <;> rfl
  rw [registers, contextAt, CpuContext.mk.injEq]
  exact ⟨funext hsaved, rfl, rfl, rfl⟩

theorem afterSwitch_mem (m : Machine) : (afterSwitch m).mem =
    storeSlots m.mem (m.x 0) (contextWord (registers m)) contextWords :=
  run_saveContext_mem m

theorem afterSwitch_registers (m : Machine) :
    registers (afterSwitch m) = contextAt (afterSwitch m).mem (m.x 1) :=
  run_loadContext (run m saveContext)

theorem contextAt_outside (h : ∀ i < contextWords, ∀ j < contextWords, slot q i ≠ slot p j) :
    contextAt (storeSlots mem p (contextWord r) contextWords) q = contextAt mem q := by
  have hword : ∀ i < contextWords,
      storeSlots mem p (contextWord r) contextWords (slot q i) = mem (slot q i) :=
    fun i hi => storeSlots_outside (h i hi)
  rw [contextAt, contextAt, CpuContext.mk.injEq]
  exact ⟨funext fun i => hword i (i.isLt.trans (by decide)), hword 10 (by decide), hword 11 (by decide),
    hword 12 (by decide)⟩

theorem contextAt_self : contextAt (storeSlots mem p (contextWord r) contextWords) p = r := by
  have hword : ∀ i < contextWords,
      storeSlots mem p (contextWord r) contextWords (slot p i) = contextWord r i :=
    fun i hi => storeSlots_self (by decide) hi
  have hsaved : ∀ i : Fin 10, contextWord r i = r.saved i := by
    intro i
    rw [contextWord, dif_pos i.isLt]
  rw [contextAt]
  cases r
  rw [CpuContext.mk.injEq]
  exact ⟨funext fun i => (hword i (i.isLt.trans (by decide))).trans (hsaved i), hword 10 (by decide),
    hword 11 (by decide), hword 12 (by decide)⟩

/-- `cpu_switch_to` does what the model says, and returns to where the next thread has called it. -/
theorem Cpu.Shows.switchTo {s : State} (h : c.Shows m) (hprev : c.sched.current = some prev)
    (hnext : s.current = some next) (hne : prev ≠ next) (hcells : s.cells = c.sched.cells)
    (hp : prev ∈ c.sched.cells) (hn : next ∈ c.sched.cells) (hx : m.x 0 = block prev)
    (hx₁ : m.x 1 = block next) :
    (c.switchTo s).Shows (afterSwitch m) ∧ (afterSwitch m).pc = (c.context next).lr := by
  have hswitch : c.switchTo s = ⟨s, c.context next, Function.update c.context prev c.regs⟩ := by
    rw [Cpu.switchTo, hprev, hnext]
    exact if_neg hne
  have hmem : (afterSwitch m).mem = storeSlots m.mem (block prev) (contextWord c.regs) contextWords := by
    rw [← hx, ← h.regs]
    exact afterSwitch_mem m
  have hothers : ∀ u ∈ c.sched.cells, u ≠ prev → contextAt (afterSwitch m).mem (block u) = c.context u := by
    intro u hu hup
    rw [hmem, contextAt_outside (h.apart u hu prev hp hup), h.context u hu]
  have hregs : registers (afterSwitch m) = c.context next := by
    have hloaded := afterSwitch_registers m
    rw [hx₁] at hloaded
    exact hloaded.trans (hothers next hn hne.symm)
  rw [hswitch]
  refine ⟨⟨hregs, ?_, ?_, ?_⟩, congrArg CpuContext.lr hregs⟩
  · intro u hu
    dsimp only at hu ⊢
    by_cases hup : u = prev
    · rw [hup, hmem, contextAt_self, Function.update_self]
    · rw [hcells] at hu
      rw [hothers u hu hup, Function.update_of_ne hup]
  · intro u hu
    obtain rfl := Option.some.inj (hnext.symm.trans hu)
    exact hx₁
  · rw [hcells]
    exact h.apart

theorem Inv.schedule_cells {s s' : State} (h : Inv s rq zq) (heq : s.schedule = some s') :
    s'.cells = s.cells := by
  obtain ⟨d, hd, -⟩ := h.current
  rcases h.schedule_cases hd with ⟨hstay, -⟩ | ⟨s₁, n, rest, -, -, heq₁, -, -, -, -, hcells, -⟩
  · obtain rfl := Option.some.inj (heq.symm.trans hstay)
    rfl
  · obtain rfl := Option.some.inj (heq.symm.trans heq₁)
    exact hcells

theorem CpuAct.Schedules.cells (h : i.Schedules) (hinv : Inv c.sched rq zq) (hdoes : c.Does i c') :
    c'.sched.cells = c.sched.cells := by
  obtain ⟨a, callback, sp, forkEnd, rfl, ha⟩ := h
  cases hdoes with
  | call _ _ _ hstep =>
      have hboot : a = .reap → BootHarmless c.sched := by
        rintro rfl
        rcases ha with ha | ha | ⟨pid, ha⟩ <;> cases ha
      rw [call_sched]
      cases hinv.outcome hstep hboot with
      | create hact => rcases ha with rfl | rfl | ⟨pid, rfl⟩ <;> simp at hact
      | jump => rcases ha with ha | ha | ⟨pid, ha⟩ <;> cases ha
      | schedule heq => exact hinv.schedule_cells heq
      | leave hact hc hinv' hsame heq => exact (hinv'.schedule_cells heq).trans hsame.cells
      | miss => rfl
      | kill hfind hne hinv' hsame hsame' => exact hsame'.cells.trans hsame.cells
      | reap => rcases ha with ha | ha | ⟨pid, ha⟩ <;> cases ha

theorem Executes.does (h : Executes s i s') : s.1.Does i s'.1 := by
  cases h with
  | switch hdoes => exact hdoes
  | other hdoes => exact hdoes

theorem ExecutesSafely.safely (h : ExecutesSafely s i s') : s.1.Safely i s'.1 := ⟨h.1, h.2.does⟩

/-- The step in which the machine executes `cpu_switch_to`. -/
theorem Cpu.Shows.switched (h : c.Shows m) (hinv : Inv c.sched rq zq) (hsafe : c.Safely i c')
    (hsched : i.Schedules) (hprev : c.sched.current = some prev) (hnext : c'.sched.current = some next)
    (hne : prev ≠ next) (hx : m.x 0 = block prev) (hx₁ : m.x 1 = block next) :
    c'.Shows (afterSwitch m) ∧ (afterSwitch m).pc = (c.context next).lr := by
  obtain ⟨d, hd, hdcell, -⟩ := hinv.current
  obtain rfl := Option.some.inj (hprev.symm.trans hd)
  obtain ⟨rq', zq', hinv'⟩ := hsafe.inv ⟨rq, zq, hinv⟩
  obtain ⟨n, hn, hncell, -⟩ := hinv'.current
  obtain rfl := Option.some.inj (hnext.symm.trans hn)
  have hcells := hsched.cells hinv hsafe.2
  rw [hcells] at hncell
  have hshows := h.switchTo hprev hnext hne hcells hdcell hncell hx hx₁
  rw [← hsched.switchTo hsafe.2] at hshows
  exact hshows

theorem ExecutesSafely.shows (h : ExecutesSafely s i s') (hinv : ∃ rq zq, Inv s.1.sched rq zq)
    (hshows : s.1.Shows s.2) : s'.1.Shows s'.2 := by
  obtain ⟨rq, zq, hinv⟩ := hinv
  obtain ⟨hharm, hstep⟩ := h
  cases hstep with
  | switch hdoes hsched hprev hnext hne hx hx₁ =>
      exact (hshows.switched hinv ⟨hharm, hdoes⟩ hsched hprev hnext hne hx hx₁).1
  | other hdoes hstay hshows' => exact hshows'

/-- The machine shows the model in every run. -/
theorem ExecutesSafely.run (hrun : Trace ExecutesSafely s l s') (hinv : ∃ rq zq, Inv s.1.sched rq zq)
    (hshows : s.1.Shows s.2) : (∃ rq zq, Inv s'.1.sched rq zq) ∧ s'.1.Shows s'.2 := by
  induction hrun with
  | nil => exact ⟨hinv, hshows⟩
  | snoc _ hstep ih => exact ⟨hstep.safely.inv ih.1, hstep.shows ih.1 ih.2⟩

theorem ExecutesWithout.run (hrun : Trace (ExecutesWithout t) s l s') (hinv : ∃ rq zq, Inv s.1.sched rq zq)
    (hshows : s.1.Shows s.2) : Trace (Cpu.Passes t) s.1 l s'.1 ∧ s'.1.Shows s'.2 := by
  have hall : Trace ExecutesSafely s l s' ∧ Trace (Cpu.Passes t) s.1 l s'.1 := by
    induction hrun with
    | nil => exact ⟨.nil, .nil⟩
    | snoc _ hstep ih => exact ⟨ih.1.snoc hstep.1, ih.2.snoc ⟨hstep.1.safely, hstep.2⟩⟩
  exact ⟨hall.2, (ExecutesSafely.run hall.1 hinv hshows).2⟩

/-- A thread that waits gets the processor back at its own call of `cpu_switch_to`. -/
theorem Cpu.Holds.returns (h : c.Holds t r) (hshows : c.Shows m) (hsafe : ExecutesSafely (c, m) i (c', m'))
    (hcur' : c'.sched.current = some t) :
    registers m' = r ∧ m'.pc = r.lr ∧ m'.sys .tpidrEl1 = block t := by
  have hsched := h.back_schedules hsafe.safely hcur'
  have hregs := h.back hsafe.safely hcur'
  obtain ⟨⟨rq, zq, hinv, ht⟩, hcur, hr⟩ := h
  obtain ⟨hharm, hstep⟩ := hsafe
  cases hstep with
  | switch hdoes hsched hprev hnext hne hx hx₁ =>
      obtain rfl := Option.some.inj (hnext.symm.trans hcur')
      obtain ⟨hshows', hpc⟩ := hshows.switched hinv ⟨hharm, hdoes⟩ hsched hprev hnext hne hx hx₁
      exact ⟨hshows'.regs.trans hregs, hpc.trans (congrArg CpuContext.lr hr), hshows'.current _ hcur'⟩
  | other hdoes hstay =>
      refine absurd ⟨hsched, ?_⟩ hstay
      rw [hcur']
      exact hcur

def sampleSched : Option State := schedInit (fun _ => .clear) (fun _ => none) [] 1024 2048 3072 4096

end OscKernel.Sched
