import OscKernel.HandlerStack
import OscKernel.Scheduler

/-!
# The save area of a signal

`sig_frame` has the size of a pointer, but `handle_signal` copies a whole trap frame there: over `cwd`,
`fd_table` and `next`, and over what lies behind the structure. `sys_sigreturn` copies the same words back and
restores no field. So a signal goes unnoticed only when the registers `x1` to `x18` of the interrupted frame
have the words that these fields end with anyway.
-/

namespace OscKernel.Proc

open Vfs (threadStackSize UserPath)

/-- The files, the scheduler with the field `next`, and the fields for files of the tasks. -/
structure Kernel where
  files : Vfs.State
  sched : Sched.State
  tasks : ℕ → Vfs.Task

/-- What the current task does: it computes, it is preempted, and it makes calls on files. -/
inductive Call where
  | exec (regs : CpuContext)
  | schedule
  | open (path : UserPath) (flags : BitVec 32)
  | close (fd : ℤ)
  | chdir (path : UserPath)

namespace Kernel

def setTask (k : Kernel) (t : ℕ) (files : Vfs.State) (task : Vfs.Task) : Kernel :=
  { k with files, tasks := Function.update k.tasks t task }

def call (k : Kernel) : Call → Option Kernel
  | .exec _ => some k
  | .schedule => do
      let sched ← k.sched.schedule
      some { k with sched }
  | .open path flags =>
      match k.sched.current with
      | none => if path.missing then some k else none
      | some t => do
          let (files, task, _) ← Vfs.sysOpen k.files (k.tasks t) path flags
          some (k.setTask t files task)
  | .close fd =>
      match k.sched.current with
      | none => some k
      | some t =>
          let (files, task, _) := Vfs.sysClose k.files (k.tasks t) fd
          some (k.setTask t files task)
  | .chdir path =>
      match k.sched.current with
      | none => some k
      | some t =>
          let (files, task, _) := Vfs.sysChdir k.files (k.tasks t) path
          some (k.setTask t files task)

def run (k : Kernel) (l : List Call) : Option Kernel := l.foldlM call k

def fields (k : Kernel) (t : ℕ) : Fields :=
  ⟨.ofNat 64 (k.tasks t).cwd, fun i => .ofNat 64 ((k.tasks t).fdTable i), .ofNat 64 ((k.sched.next t).getD 0)⟩

def EndsWith (k : Kernel) (l : List Call) (t : ℕ) (w : Fields) : Prop :=
  ∃ k', k.run l = some k' ∧ k'.fields t = w

def pointer (p : ℕ) : Option ℕ := if p = 0 then none else some p

def setFields (k : Kernel) (t : ℕ) (w : Fields) : Kernel :=
  { k with
    sched := { k.sched with next := Function.update k.sched.next t (pointer w.next.toNat) }
    tasks := Function.update k.tasks t ⟨w.cwd.toNat, fun i => (w.fdTable i).toNat⟩ }

def takeStack (k : Kernel) : Kernel :=
  { k with files := { k.files with heap := (k.files.heap.alloc threadStackSize).1 } }

end Kernel

/-- The kernel with what a machine has besides: the registers and the other words of the control blocks. -/
structure System where
  kernel : Kernel
  machine : Machine

/-- The registers after a call, which `schedule` may have made the `cpu_switch_to` of. -/
def Machine.follow (m : Machine) (k k' : Kernel) : Call → Machine
  | .exec regs => { m with regs }
  | .schedule =>
      match k.sched.current, k'.sched.current with
      | some prev, some next => if prev = next then m else m.cpuSwitchTo prev next
      | _, _ => m
  | _ => m

namespace System

def step (s : System) (c : Call) : Option System := do
  let kernel ← s.kernel.call c
  some ⟨kernel, s.machine.follow s.kernel kernel c⟩

def run (s : System) (l : List Call) : Option System := l.foldlM step s

def joined (s : System) : Machine :=
  { s.machine with
    heap := s.kernel.files.heap
    current := s.kernel.sched.current.getD 0
    blocks := fun t =>
      { s.machine.blocks t with
        task :=
          { (s.machine.blocks t).task with
            cwd := (s.kernel.tasks t).cwd
            fdTable := (s.kernel.tasks t).fdTable
            next := (s.kernel.sched.next t).getD 0 } } }

def put (s : System) (t : ℕ) (m : Machine) : System where
  kernel :=
    { files := { s.kernel.files with heap := m.heap }
      sched :=
        { s.kernel.sched with
          next := Function.update s.kernel.sched.next t (Kernel.pointer (m.blocks t).task.next) }
      tasks := Function.update s.kernel.tasks t ⟨(m.blocks t).task.cwd, (m.blocks t).task.fdTable⟩ }
  machine := m

def Delivers (sym : Symbols) (s : System) (task : ℕ) (sig : ℤ) (frame : TrapFrame) (s' : System) : Prop :=
  ∃ m, Machine.Delivers sym s.joined task sig frame m ∧ s' = s.put task m

def Returns (s : System) (s' : System) (restored : TrapFrame) : Prop :=
  ∃ m addr, s.joined.sysSigreturn = (m, some (addr, restored)) ∧ s' = s.put (s.kernel.sched.current.getD 0) m

variable {sym : Symbols} {s s' s₁ s₂ s₃ : System} {task t : ℕ} {sig : ℤ} {frame restored : TrapFrame}
  {l : List Call}

/-- What a run keeps of a control block: nothing but `cpu_context` is written in the machine. -/
def SameWords (m m' : Machine) : Prop :=
  ∀ t, (m'.blocks t).task.sigFrame = (m.blocks t).task.sigFrame ∧ (m'.blocks t).slack = (m.blocks t).slack

theorem sameWords_cpuSwitchTo (m : Machine) (prev next : ℕ) : SameWords m (m.cpuSwitchTo prev next) := by
  intro t
  change (Function.update m.blocks prev _ t).task.sigFrame = _ ∧ (Function.update m.blocks prev _ t).slack = _
  by_cases ht : t = prev
  · rw [ht, Function.update_self]
    exact ⟨rfl, rfl⟩
  · rw [Function.update_of_ne ht]
    exact ⟨rfl, rfl⟩

theorem sameWords_follow (m : Machine) (k k' : Kernel) (c : Call) : SameWords m (m.follow k k' c) := by
  cases c with
  | schedule =>
      rw [Machine.follow]
      split
      · split_ifs
        · exact fun t => ⟨rfl, rfl⟩
        · exact sameWords_cpuSwitchTo m _ _
      · exact fun t => ⟨rfl, rfl⟩
  | _ => exact fun t => ⟨rfl, rfl⟩

theorem run_spec (h : s.run l = some s') :
    s.kernel.run l = some s'.kernel ∧ SameWords s.machine s'.machine := by
  induction l generalizing s with
  | nil =>
      obtain rfl := Option.some.inj h
      exact ⟨rfl, fun t => ⟨rfl, rfl⟩⟩
  | cons c l ih =>
      obtain ⟨s₁, hstep, hrun⟩ := Option.bind_eq_some_iff.1 h
      obtain ⟨k, hcall, heq⟩ := Option.bind_eq_some_iff.1 hstep
      obtain rfl := Option.some.inj heq
      obtain ⟨hkernel, hwords⟩ := ih hrun
      refine ⟨?_, fun t => ?_⟩
      · change (s.kernel.call c).bind (fun k => k.run l) = _
        rw [hcall]
        exact hkernel
      · have hfirst := sameWords_follow s.machine s.kernel k c t
        exact ⟨(hwords t).1.trans hfirst.1, (hwords t).2.trans hfirst.2⟩

theorem fields_joined (s : System) (t : ℕ) : (s.joined.blocks t).fields = s.kernel.fields t := rfl

theorem pointer_getD (p : ℕ) : (Kernel.pointer p).getD 0 = p := by
  rw [Kernel.pointer]
  split_ifs with h
  · exact h.symm
  · rfl

/-- The delivery puts the registers into the fields, and the other words of the frame around them. -/
theorem Delivers.spec (h : Delivers sym s task sig frame s₁) :
    s₁.kernel = s.kernel.takeStack.setFields task (frameFields frame) ∧
      (s₁.machine.blocks task).task.sigFrame = frame 0 ∧
        (s₁.machine.blocks task).slack = frameSlack frame := by
  obtain ⟨m, hdel, rfl⟩ := h
  obtain ⟨handler, rfl⟩ := hdel.enters
  have hblock := Machine.enterHandler_block sym s.joined task handler frame
  refine ⟨?_, ?_, ?_⟩
  · rw [put, hblock]
    rfl
  · change (((s.joined.enterHandler sym task handler frame).1).blocks task).task.sigFrame = _
    rw [hblock]
    rfl
  · change (((s.joined.enterHandler sym task handler frame).1).blocks task).slack = _
    rw [hblock]
    rfl

theorem Returns.spec (h : Returns s s' restored) (hcur : s.kernel.sched.current = some task) :
    restored = (s.joined.blocks task).area ∧ s'.kernel.fields task = s.kernel.fields task := by
  obtain ⟨m, addr, hret, rfl⟩ := h
  obtain ⟨-, hframe, rfl⟩ := Machine.sysSigreturn_some hret
  have hcurrent : s.joined.current = task := congrArg (Option.getD · 0) hcur
  rw [hcurrent] at hframe
  refine ⟨hframe, ?_⟩
  rw [hcur, Option.getD_some]
  change Fields.mk _ _ _ = Fields.mk _ _ _
  simp only [put, Function.update_self, pointer_getD]
  rfl

/-- A task that is current does return. -/
theorem exists_returns (hcur : s.kernel.sched.current = some task) (h0 : task ≠ 0) :
    ∃ s', Returns s s' (s.joined.blocks task).area := by
  have hcurrent : s.joined.current = task := congrArg (Option.getD · 0) hcur
  have hret := Machine.sysSigreturn_of_ne (s := s.joined) (by rwa [hcurrent])
  rw [hcurrent] at hret
  exact ⟨_, _, _, hret, rfl⟩

/-- The words around the fields come back in any case. -/
theorem restored_eq_iff (hdel : Delivers sym s task sig frame s₁) (hrun : s₁.run l = some s₂)
    (hcur : s₂.kernel.sched.current = some task) (hret : Returns s₂ s₃ restored) :
    restored = frame ↔ s₂.kernel.fields task = frameFields frame := by
  obtain ⟨-, hsig, hslack⟩ := hdel.spec
  obtain ⟨hsig₂, hslack₂⟩ := (run_spec hrun).2 task
  rw [(hret.spec hcur).1, Block.area_eq_iff, fields_joined]
  have hsig' : (s₂.joined.blocks task).task.sigFrame = frame 0 := hsig₂.trans hsig
  have hslack' : (s₂.joined.blocks task).slack = frameSlack frame := hslack₂.trans hslack
  rw [and_iff_right hsig', and_iff_left hslack']

/-- What a signal is to leave behind: the interrupted frame, and the fields as the same calls would have left
them without it. Both runs find the same heap. -/
def Transparent (s : System) (task : ℕ) (frame : TrapFrame) (l : List Call) (s' : System)
    (restored : TrapFrame) : Prop :=
  restored = frame ∧ s.kernel.takeStack.EndsWith l task (s'.kernel.fields task)

/-- The signal goes unnoticed exactly when the calls lead to the registers `x1` to `x18` of the interrupted
frame, both from these registers in the fields and from the fields as they are. -/
theorem signal_transparent_iff (hdel : Delivers sym s task sig frame s₁) (hrun : s₁.run l = some s₂)
    (hcur : s₂.kernel.sched.current = some task) (hret : Returns s₂ s₃ restored) :
    Transparent s task frame l s₃ restored ↔
      (s.kernel.takeStack.setFields task (frameFields frame)).EndsWith l task (frameFields frame) ∧
        s.kernel.takeStack.EndsWith l task (frameFields frame) := by
  have hkernel := (run_spec hrun).1
  rw [hdel.spec.1] at hkernel
  have hends : (s.kernel.takeStack.setFields task (frameFields frame)).EndsWith l task (frameFields frame) ↔
      s₂.kernel.fields task = frameFields frame := by
    constructor
    · rintro ⟨k, hk, hfields⟩
      rw [hkernel] at hk
      rwa [Option.some.inj hk]
    · exact fun hfields => ⟨_, hkernel, hfields⟩
  rw [hends, Transparent, restored_eq_iff hdel hrun hcur hret, (hret.spec hcur).2]
  exact and_congr_right fun hfields => by rw [hfields]

def sampleFiles : Vfs.State where
  heap := Machine.sampleMachine.heap
  mem := fun _ => 0
  vnodes := fun _ => ⟨0, none, none, 0, 0, false⟩
  nodes := fun _ => ⟨[], .directory, 0, 0, 0, 0, fun _ => 0, 0⟩
  mounts := fun _ => ⟨0, 0⟩
  files := fun _ => ⟨0, 0, none, 0⟩
  fsTable := fun _ => ⟨[], none⟩
  filesystems := []
  rootfs := 0

def sampleSched : Sched.State where
  tasks := fun t => if t = 4096 then ⟨1, .running, 8192, 12288⟩ else ⟨2, .ready, 24576, 28672⟩
  next := fun _ => none
  readyQueue := some 20480
  waitQueue := none
  zombieQueue := none
  threadCnt := 3
  current := some 4096
  live := [4096, 8192, 12288, 20480, 24576, 28672]
  cells := [20480, 4096]
  boot := none

def sampleSystem : System where
  kernel := ⟨sampleFiles, sampleSched, fun _ => ⟨16384, fun _ => 0⟩⟩
  machine := Machine.sampleMachine

def deliveredSystem (frame : TrapFrame) : System :=
  sampleSystem.put 4096 (sampleSystem.joined.enterHandler Machine.sampleSymbols 4096 0x400000 frame).1

theorem deliveredSystem_delivers (frame : TrapFrame) :
    Delivers Machine.sampleSymbols sampleSystem 4096 10 frame (deliveredSystem frame) := by
  have hcustom : Machine.Custom Machine.sampleSymbols
      ((sampleSystem.joined.blocks 4096).task.sigHandlers ⟨10, by decide⟩) := by decide
  have hdel (f : TrapFrame) : Machine.Delivers _ _ _ _ f _ := Machine.delivers_custom hcustom
  exact ⟨(sampleSystem.joined.enterHandler Machine.sampleSymbols 4096 0x400000 frame).1, hdel frame, rfl⟩

def preemptedCalls : List Call := [.exec { Machine.zeroContext with fp := 12160 }, .schedule, .schedule]

def resumedSystem (frame : TrapFrame) : System :=
  ((deliveredSystem frame).run preemptedCalls).getD sampleSystem

theorem resumedSystem_run (frame : TrapFrame) :
    (deliveredSystem frame).run preemptedCalls = some (resumedSystem frame) := rfl

theorem resumedSystem_current (frame : TrapFrame) :
    (resumedSystem frame).kernel.sched.current = some 4096 := rfl

/-- Registers with the fields of the task, and with the task that is queued behind it. -/
def fittingFrame : TrapFrame := fun i => if i = 1 then 16384 else if i = 18 then 20480 else 0

theorem signal_transparent_fitting :
    ∃ s₁ s₂ s₃ restored, Delivers Machine.sampleSymbols sampleSystem 4096 10 fittingFrame s₁ ∧
      s₁.run preemptedCalls = some s₂ ∧ Returns s₂ s₃ restored ∧
      (Transparent sampleSystem 4096 fittingFrame preemptedCalls s₃ restored ↔
        (sampleSystem.kernel.takeStack.setFields 4096 (frameFields fittingFrame)).EndsWith preemptedCalls 4096
            (frameFields fittingFrame) ∧
          sampleSystem.kernel.takeStack.EndsWith preemptedCalls 4096 (frameFields fittingFrame)) := by
  have hdel := deliveredSystem_delivers fittingFrame
  obtain ⟨s₃, hret⟩ := exists_returns (resumedSystem_current fittingFrame) (by decide)
  exact ⟨_, _, s₃, _, hdel, resumedSystem_run _, hret,
    signal_transparent_iff hdel (resumedSystem_run _) (resumedSystem_current _) hret⟩

/-- Of other registers, `x18` does not come back, and `x1` is the directory of the task afterwards. -/
theorem signal_not_transparent :
    ∃ s₁ s₂ s₃ restored, Delivers Machine.sampleSymbols sampleSystem 4096 10 Machine.sampleFrame s₁ ∧
      s₁.run preemptedCalls = some s₂ ∧ Returns s₂ s₃ restored ∧ restored 18 = 20480 ∧
      Machine.sampleFrame 18 = 18 ∧ (sampleSystem.kernel.fields 4096).cwd = 16384 ∧
      (s₃.kernel.fields 4096).cwd = 1 ∧
      ¬ Transparent sampleSystem 4096 Machine.sampleFrame preemptedCalls s₃ restored := by
  have hcur := resumedSystem_current Machine.sampleFrame
  obtain ⟨s₃, hret⟩ := exists_returns hcur (by decide)
  have hx18 : ((resumedSystem Machine.sampleFrame).joined.blocks 4096).area 18 = 20480 := by decide
  refine ⟨_, _, s₃, _, deliveredSystem_delivers _, resumedSystem_run _, hret, hx18, by decide, by decide, ?_,
    fun h => ?_⟩
  · rw [(hret.spec hcur).2]
    decide
  · exact absurd (congrFun h.1 18) (by decide)

end System

end OscKernel.Proc
