import OscKernel.ForkRuns

/-!
# What a child inherits

A child is to be a copy of its parent, whatever the memory held before that `alloc` hands out. `sys_fork` does
not write `sig_frame`, `cwd` and `fd_table`, so it is one only if the block holds them already. Two runs that
differ in that memory alone give the same child only if the block holds the same in both.
-/

namespace OscKernel.Proc

open Vfs (Extends threadStackSize sizeofThreadTask)
open ByteOrder (word setWord)
open Relation (ReflTransGen)

variable {k : ForkSymbols} {s s' s₁ s₁' s₂ s₂' : Threads} {e : Entry} {c c₁ c₂ : ℕ}

/-- The second state differs from the first only in what the memory holds that is not in use. -/
structure Refilled (s₁ s₂ : Threads) : Prop where
  eq : s₂ = { s₁ with fs := { s₁.fs with mem := s₂.fs.mem }, blocks := s₂.blocks }
  mem : ∀ b ∈ s₁.fs.heap.live, ∀ x, b.1 ≤ x → x < b.1 + b.2 → s₂.fs.mem x = s₁.fs.mem x
  blocks : ∀ b ∈ s₁.fs.heap.live, s₂.blocks b.1 = s₁.blocks b.1

/-- The child `c` is a copy of its parent with a number of its own. Its kernel stack differs in what the call
returns and in the stack pointer of user mode, which points into its own stack. -/
structure Inherits (k : ForkSymbols) (s : Threads) (e : Entry) (s' : Threads) (c : ℕ) : Prop where
  cpuContext : (s'.blocks c).cpuContext =
    { s.running.cpuContext with
      sp := .ofNat 64 ((s'.blocks c).kernelStack + e.sp)
      lr := k.syscallForkEnd }
  id : ∀ t ∈ s.threads, (s'.blocks t).id ≠ (s'.blocks c).id
  state : (s'.blocks c).state = taskReady
  counter : (s'.blocks c).counter = s.running.counter
  priority : (s'.blocks c).priority = s.running.priority
  preemptCount : (s'.blocks c).preemptCount = s.running.preemptCount
  kernelStack : s'.fs.mem.read (s'.blocks c).kernelStack threadStackSize =
    childKernelStack (s.fs.mem.read s.running.kernelStack threadStackSize)
      (word s.fs.mem (s.running.kernelStack + e.frame + spEl0Offset)) s.running (s'.blocks c).userStack e
  userStack : s'.fs.mem.read (s'.blocks c).userStack threadStackSize =
    s.fs.mem.read s.running.userStack threadStackSize
  pendingSig : (s'.blocks c).pendingSig = s.running.pendingSig
  sigHandlers : (s'.blocks c).sigHandlers = s.running.sigHandlers
  cwd : (s'.blocks c).cwd = s.running.cwd
  fdTable : ∀ i, (s'.blocks c).fdTable i = s.running.fdTable i
  next : (s'.blocks c).next = 0

structure SameChild (s₁' : Threads) (c₁ : ℕ) (s₂' : Threads) (c₂ : ℕ) : Prop where
  block : s₂'.blocks c₂ = s₁'.blocks c₁
  kernelStack : s₂'.fs.mem.read (s₂'.blocks c₂).kernelStack threadStackSize =
    s₁'.fs.mem.read (s₁'.blocks c₁).kernelStack threadStackSize
  userStack : s₂'.fs.mem.read (s₂'.blocks c₂).userStack threadStackSize =
    s₁'.fs.mem.read (s₁'.blocks c₁).userStack threadStackSize

def Threads.held (s : Threads) : ThreadTask := s.blocks (newBlock s.fs)

/-- The block holds the directory and the descriptors of the thread that is running. -/
def Threads.HoldsFiles (s : Threads) : Prop :=
  s.held.cwd = s.running.cwd ∧ s.held.fdTable = s.running.fdTable

def Threads.FreshId (s : Threads) : Prop := ∀ t ∈ s.threads, (s.blocks t).id ≠ s.threadCnt

theorem Forked.stacksApart (h : Forked k s e s' c) (hinv : s.Inv) (hcur : s.current ∈ s.threads) :
    StacksApart s.running (newKernelStack s.fs) (newUserStack s.fs) := by
  have hapart := h.extend.ok.apart
  rw [h.extend.live] at hapart
  obtain ⟨hnew, -, hold⟩ := List.pairwise_append.1 hapart
  have hkernel := hinv.kernelStack_live hcur
  have huser := hinv.userStack_live hcur
  exact
    { user := hold (newUserStack s.fs, threadStackSize) (by simp [newOwn]) _ huser
      userKernel := hold (newUserStack s.fs, threadStackSize) (by simp [newOwn]) _ hkernel
      kernel := hold (newKernelStack s.fs, threadStackSize) (by simp [newOwn]) _ hkernel
      own := ((List.pairwise_cons.1 hnew).1 (newKernelStack s.fs, threadStackSize) (by simp)).symm }

/-- What the parent gets from the call is written outside the stacks of the child. -/
theorem Forked.read_stack (h : Forked k s e s' c) {a : ℕ}
    (hap : Vfs.Apart a threadStackSize (s.running.kernelStack, threadStackSize)) :
    s'.fs.mem.read a threadStackSize =
      (forkStacks s.fs.mem s.running (newKernelStack s.fs) (newUserStack s.fs) e).read a threadStackSize := by
  have hfits := e.fits
  have hsize : 8 ≤ Vfs.sizeofTrapFrame := by decide
  simp only [Vfs.Apart] at hap
  rw [h.mem]
  exact ByteMem.read_congr _ _ fun x hlo hhi => ByteOrder.setWord_outside (by omega)

theorem Forked.read_kernelStack (h : Forked k s e s' c) (hinv : s.Inv) (hcur : s.current ∈ s.threads) :
    s'.fs.mem.read (newKernelStack s.fs) threadStackSize =
      childKernelStack (s.fs.mem.read s.running.kernelStack threadStackSize)
        (word s.fs.mem (s.running.kernelStack + e.frame + spEl0Offset)) s.running (newUserStack s.fs) e := by
  have hap := h.stacksApart hinv hcur
  rw [h.read_stack hap.kernel, forkStacks_kernel hap]

theorem Forked.read_userStack (h : Forked k s e s' c) (hinv : s.Inv) (hcur : s.current ∈ s.threads) :
    s'.fs.mem.read (newUserStack s.fs) threadStackSize =
      s.fs.mem.read s.running.userStack threadStackSize := by
  have hap := h.stacksApart hinv hcur
  rw [h.read_stack hap.userKernel, forkStacks_user hap]

theorem Forked.inherits_iff (h : Forked k s e s' c) (hinv : s.Inv) (hcur : s.current ∈ s.threads) :
    Inherits k s e s' c ↔ s.HoldsFiles ∧ s.FreshId := by
  have hheld : s.blocks c = s.held := by rw [Threads.held, h.block_eq]
  have hchild := h.child
  rw [hheld] at hchild
  have hid : ∀ t ∈ s.threads, (s'.blocks t).id = (s.blocks t).id := by
    intro t ht
    have hne : t ≠ c := by
      rw [h.block_eq]
      exact newBlock_ne h.extend (hinv.task_live ht)
    obtain ⟨n, hn⟩ := h.other t hne
    rw [hn]
  constructor
  · intro hi
    refine ⟨⟨?_, ?_⟩, fun t ht => ?_⟩
    · have hcwd := hi.cwd
      rwa [hchild] at hcwd
    · have hfd := funext hi.fdTable
      rwa [hchild] at hfd
    · have hne := hi.id t ht
      rwa [hid t ht, hchild] at hne
  · rintro ⟨⟨hcwd, hfd⟩, hfresh⟩
    have hfield : ∀ {α : Type} (f : ThreadTask → α), f (s'.blocks c) =
        f (childTask k s.running s.held s.threadCnt (newKernelStack s.fs) (newUserStack s.fs) e) :=
      fun f => congrArg f hchild
    have hkernel : (s'.blocks c).kernelStack = newKernelStack s.fs := hfield ThreadTask.kernelStack
    have huser : (s'.blocks c).userStack = newUserStack s.fs := hfield ThreadTask.userStack
    exact
      { cpuContext := by
          rw [hkernel, hchild]
          rfl
        id := fun t ht => by
          rw [hid t ht, hchild]
          exact hfresh t ht
        state := hfield ThreadTask.state
        counter := hfield ThreadTask.counter
        priority := hfield ThreadTask.priority
        preemptCount := hfield ThreadTask.preemptCount
        kernelStack := by
          rw [hkernel, huser]
          exact h.read_kernelStack hinv hcur
        userStack := by
          rw [huser]
          exact h.read_userStack hinv hcur
        pendingSig := hfield ThreadTask.pendingSig
        sigHandlers := hfield ThreadTask.sigHandlers
        cwd := (hfield ThreadTask.cwd).trans hcwd
        fdTable := fun i => by
          rw [hchild]
          exact congrFun hfd i
        next := hfield ThreadTask.next }

namespace Refilled

theorem heap (h : Refilled s₁ s₂) : s₂.fs.heap = s₁.fs.heap := by rw [h.eq]

theorem threads (h : Refilled s₁ s₂) : s₂.threads = s₁.threads := by rw [h.eq]

theorem current (h : Refilled s₁ s₂) : s₂.current = s₁.current := by rw [h.eq]

theorem threadCnt (h : Refilled s₁ s₂) : s₂.threadCnt = s₁.threadCnt := by rw [h.eq]

theorem block (h : Refilled s₁ s₂) (hinv : s₁.Inv) {t : ℕ} (ht : t ∈ s₁.threads) :
    s₂.blocks t = s₁.blocks t :=
  h.blocks _ (hinv.task_live ht)

theorem running (h : Refilled s₁ s₂) (hinv : s₁.Inv) (hcur : s₁.current ∈ s₁.threads) :
    s₂.running = s₁.running := by
  rw [Threads.running, h.current, h.block hinv hcur, Threads.running]

/-- Other code may have left such a state as well. -/
theorem other (h : Refilled s₁ s₂) (hinv : s₁.Inv) : Other s₁ s₂ := by
  refine ⟨?_, h.threads, h.threadCnt, fun t ht => ?_, fun t ht => ?_, fun t ht b hb => ?_, fun t ht => ?_⟩
  · rw [h.heap]
    exact hinv.heap
  · rw [h.block hinv ht]
  · rw [Threads.own, Threads.own, h.block hinv ht]
  · rw [h.heap]
    exact hinv.live t ht b hb
  · rw [h.heap]
    rw [h.eq] at ht
    exact hinv.queue t ht

theorem newKernelStack (h : Refilled s₁ s₂) : newKernelStack s₂.fs = newKernelStack s₁.fs := by
  simp only [Proc.newKernelStack, Vfs.State.alloc, h.heap]

theorem newUserStack (h : Refilled s₁ s₂) : newUserStack s₂.fs = newUserStack s₁.fs := by
  simp only [Proc.newUserStack, Vfs.State.alloc, h.heap]

theorem read (h : Refilled s₁ s₂) {a n : ℕ} (ha : (a, n) ∈ s₁.fs.heap.live) :
    s₂.fs.mem.read a n = s₁.fs.mem.read a n :=
  ByteMem.read_congr _ _ fun x hlo hhi => h.mem (a, n) ha x hlo hhi

/-- The stack pointer of user mode in the trap frame. -/
theorem spEl0 (h : Refilled s₁ s₂) (hinv : s₁.Inv) (hcur : s₁.current ∈ s₁.threads) (e : Entry) :
    word s₂.fs.mem (s₁.running.kernelStack + e.frame + spEl0Offset) =
      word s₁.fs.mem (s₁.running.kernelStack + e.frame + spEl0Offset) := by
  have hfits := e.fits
  have hspEl0 : spEl0Offset + 8 ≤ Vfs.sizeofTrapFrame := by decide
  refine ByteOrder.word_congr fun x hlo hhi => ?_
  exact h.mem _ (hinv.kernelStack_live hcur) x (by change s₁.running.kernelStack ≤ x; omega)
    (by change x < s₁.running.kernelStack + threadStackSize; omega)

end Refilled

theorem sameChild_iff (hrefill : Refilled s₁ s₂) (hinv : s₁.Inv) (hcur : s₁.current ∈ s₁.threads)
    (h₁ : Forked k s₁ e s₁' c₁) (h₂ : Forked k s₂ e s₂' c₂) :
    SameChild s₁' c₁ s₂' c₂ ↔ s₂.held.sigFrame = s₁.held.sigFrame ∧ s₂.held.cwd = s₁.held.cwd ∧
      s₂.held.fdTable = s₁.held.fdTable := by
  have hinv₂ := (hrefill.other hinv).inv hinv
  have hcur₂ : s₂.current ∈ s₂.threads := by rwa [hrefill.current, hrefill.threads]
  have hrun := hrefill.running hinv hcur
  have hchild₁ := h₁.child
  have hchild₂ := h₂.child
  rw [show s₁.blocks c₁ = s₁.held by rw [Threads.held, h₁.block_eq]] at hchild₁
  rw [show s₂.blocks c₂ = s₂.held by rw [Threads.held, h₂.block_eq], hrun, hrefill.threadCnt,
    hrefill.newKernelStack, hrefill.newUserStack] at hchild₂
  have hblock : s₂'.blocks c₂ = s₁'.blocks c₁ ↔ s₂.held.sigFrame = s₁.held.sigFrame ∧
      s₂.held.cwd = s₁.held.cwd ∧ s₂.held.fdTable = s₁.held.fdTable := by
    rw [hchild₁, hchild₂]
    simp only [childTask, ThreadTask.mk.injEq, true_and, and_true]
  have hkernel : (s₁'.blocks c₁).kernelStack = newKernelStack s₁.fs :=
    congrArg ThreadTask.kernelStack hchild₁
  have huser : (s₁'.blocks c₁).userStack = newUserStack s₁.fs := congrArg ThreadTask.userStack hchild₁
  refine ⟨fun h => hblock.1 h.block, fun hheld => ?_⟩
  have heq := hblock.2 hheld
  refine ⟨heq, ?_, ?_⟩
  · have hparent : s₂.fs.mem.read s₁.running.kernelStack threadStackSize =
        s₁.fs.mem.read s₁.running.kernelStack threadStackSize := hrefill.read (hinv.kernelStack_live hcur)
    have hread₂ := h₂.read_kernelStack hinv₂ hcur₂
    rw [hrefill.newKernelStack, hrefill.newUserStack, hrun, hrefill.spEl0 hinv hcur, hparent] at hread₂
    rw [heq, hkernel, hread₂, h₁.read_kernelStack hinv hcur]
  · have hparent : s₂.fs.mem.read s₁.running.userStack threadStackSize =
        s₁.fs.mem.read s₁.running.userStack threadStackSize := hrefill.read (hinv.userStack_live hcur)
    have hread₂ := h₂.read_userStack hinv₂ hcur₂
    rw [hrefill.newUserStack, hrun, hparent] at hread₂
    rw [heq, huser, hread₂, h₁.read_userStack hinv hcur]

/-- After both runs the child is a copy of its parent, and the same one, exactly if the block has held the
directory and the descriptors of the parent in both, and the same frame, and the number is fresh. -/
theorem fork_inherits_iff (hs : s₁.Reachable k) (hcur : s₁.current ∈ s₁.threads) (hrefill : Refilled s₁ s₂)
    (h₁ : sysFork k s₁ e = (s₁', some c₁)) (h₂ : sysFork k s₂ e = (s₂', some c₂)) :
    Inherits k s₁ e s₁' c₁ ∧ Inherits k s₂ e s₂' c₂ ∧ SameChild s₁' c₁ s₂' c₂ ↔
      s₁.HoldsFiles ∧ s₂.HoldsFiles ∧ s₂.held.sigFrame = s₁.held.sigFrame ∧ s₁.FreshId := by
  have hinv := hs.inv
  have hinv₂ := (hrefill.other hinv).inv hinv
  have hcur₂ : s₂.current ∈ s₂.threads := by rwa [hrefill.current, hrefill.threads]
  have hforked₁ := hinv.forked hcur h₁
  have hforked₂ := hinv₂.forked hcur₂ h₂
  have hrun := hrefill.running hinv hcur
  have hfresh : s₂.FreshId ↔ s₁.FreshId := by
    simp only [Threads.FreshId, hrefill.threads, hrefill.threadCnt]
    exact forall₂_congr fun t ht => by rw [hrefill.block hinv ht]
  rw [hforked₁.inherits_iff hinv hcur, hforked₂.inherits_iff hinv₂ hcur₂,
    sameChild_iff hrefill hinv hcur hforked₁ hforked₂, hfresh]
  constructor
  · rintro ⟨⟨hfiles₁, hid⟩, ⟨hfiles₂, -⟩, hframe, -, -⟩
    exact ⟨hfiles₁, hfiles₂, hframe, hid⟩
  · rintro ⟨hfiles₁, hfiles₂, hframe, hid⟩
    refine ⟨⟨hfiles₁, hid⟩, ⟨hfiles₂, hid⟩, hframe, ?_, ?_⟩
    · rw [hfiles₁.1, hfiles₂.1, hrun]
    · rw [hfiles₁.2, hfiles₂.2, hrun]

def bootSymbols : ForkSymbols := ⟨⟨0x80100, 0x80200, 0x80300⟩, 0x80400⟩

def staleTask (cwd : ℕ) : ThreadTask :=
  { cpuContext := ⟨fun _ => 0, 0, 0, 0⟩
    id := 0
    state := 0
    counter := 0
    priority := 0
    preemptCount := 0
    kernelStack := 0
    userStack := 0
    pendingSig := 0
    sigHandlers := fun _ => 0
    sigFrame := 0
    cwd
    fdTable := fun _ => 0
    next := 0 }

/-- Before the first thread, with memory that holds the root everywhere. -/
def booted : Threads := ⟨Vfs.Sys.blank.st, fun _ => staleTask Vfs.Sys.blank.st.root, [], [], 0, 0⟩

theorem booted_creates : (threadCreate bootSymbols.toSymbols booted 0x90000).isSome := by decide

def created : Threads := ((threadCreate bootSymbols.toSymbols booted 0x90000).get booted_creates).1

def entered : Threads := { created with current := 20480 }

def refill (b : ThreadTask) : Threads :=
  { entered with blocks := Function.update entered.blocks (newBlock entered.fs) b }

def sampleEntry : Entry := ⟨3824, 3600, by decide, by decide⟩

theorem entered_reachable : entered.Reachable bootSymbols := by
  obtain ⟨T, hinv⟩ := Vfs.Sys.blank_reachable.inv
  have hinitial : booted.Initial := ⟨hinv.tree.heap, rfl, rfl, rfl⟩
  have hcreate : Step bootSymbols booted created :=
    Step.create (r := ((threadCreate bootSymbols.toSymbols booted 0x90000).get booted_creates).2) 0x90000
      (Option.some_get booted_creates).symm
  have hinv₁ := inv_stable hinitial.inv hcreate
  have hother : Other created entered :=
    ⟨hinv₁.heap, rfl, rfl, fun _ _ => rfl, fun _ _ => rfl, hinv₁.live, hinv₁.queue⟩
  exact ⟨booted, hinitial, (ReflTransGen.single hcreate).tail (Step.other hother)⟩

theorem entered_current : entered.current ∈ entered.threads := by decide

theorem refill_refilled (b : ThreadTask) : Refilled entered (refill b) := by
  have hfresh : ∀ b ∈ entered.fs.heap.live, b.1 ≠ newBlock entered.fs := by decide
  exact ⟨rfl, fun _ _ _ _ _ => rfl, fun b hb => Function.update_of_ne (hfresh b hb) ..⟩

theorem sysFork_eq (h : (sysFork k s e).2 = some c) : sysFork k s e = ((sysFork k s e).1, some c) := by
  rw [← h]

theorem entered_forks : sysFork bootSymbols entered sampleEntry =
    ((sysFork bootSymbols entered sampleEntry).1, some 49152) :=
  sysFork_eq (by decide)

def sameRoot : Threads := refill { staleTask Vfs.Sys.blank.st.root with id := 5 }

theorem sameRoot_forks : sysFork bootSymbols sameRoot sampleEntry =
    ((sysFork bootSymbols sameRoot sampleEntry).1, some 49152) :=
  sysFork_eq (by decide)

def otherDir : Threads := refill (staleTask 12288)

theorem otherDir_forks : sysFork bootSymbols otherDir sampleEntry =
    ((sysFork bootSymbols otherDir sampleEntry).1, some 49152) :=
  sysFork_eq (by decide)

theorem fork_inherits_sample :
    Inherits bootSymbols entered sampleEntry (sysFork bootSymbols entered sampleEntry).1 49152 ∧
      Inherits bootSymbols sameRoot sampleEntry (sysFork bootSymbols sameRoot sampleEntry).1 49152 ∧
      SameChild (sysFork bootSymbols entered sampleEntry).1 49152
        (sysFork bootSymbols sameRoot sampleEntry).1 49152 := by
  have hrefill : Refilled entered sameRoot := refill_refilled _
  refine (fork_inherits_iff entered_reachable entered_current hrefill
    entered_forks sameRoot_forks).2 ⟨⟨?_, ?_⟩, ⟨?_, ?_⟩, ?_, ?_⟩
  · decide
  · exact funext (by decide)
  · decide
  · exact funext (by decide)
  · decide
  · have hid : ∀ t ∈ entered.threads, (entered.blocks t).id ≠ entered.threadCnt := by decide
    exact hid

/-- The child is in the directory of the thread that had its block before, and not in that of its parent. -/
theorem fork_inherits_stale_cwd :
    entered.Reachable bootSymbols ∧ otherDir.Reachable bootSymbols ∧ Refilled entered otherDir ∧
      sysFork bootSymbols otherDir sampleEntry = ((sysFork bootSymbols otherDir sampleEntry).1, some 49152) ∧
      otherDir.running.cwd = 16384 ∧ ((sysFork bootSymbols otherDir sampleEntry).1.blocks 49152).cwd = 12288 ∧
      ¬ Inherits bootSymbols otherDir sampleEntry (sysFork bootSymbols otherDir sampleEntry).1 49152 ∧
      ¬ SameChild (sysFork bootSymbols entered sampleEntry).1 49152
        (sysFork bootSymbols otherDir sampleEntry).1 49152 := by
  have hcwd : otherDir.running.cwd = 16384 := by decide
  have hchild : ((sysFork bootSymbols otherDir sampleEntry).1.blocks 49152).cwd = 12288 := by decide
  have hchild' : ((sysFork bootSymbols entered sampleEntry).1.blocks 49152).cwd = 16384 := by decide
  have hrefill : Refilled entered otherDir := refill_refilled _
  have hreach : otherDir.Reachable bootSymbols := by
    obtain ⟨s₀, h0, hrun⟩ := entered_reachable
    exact ⟨s₀, h0, hrun.tail (Step.other (hrefill.other entered_reachable.inv))⟩
  refine ⟨entered_reachable, hreach, hrefill, otherDir_forks, hcwd, hchild, fun h => ?_, fun h => ?_⟩
  · have heq := h.cwd
    rw [hchild, hcwd] at heq
    exact absurd heq (by decide)
  · have heq := congrArg ThreadTask.cwd h.block
    rw [hchild, hchild'] at heq
    exact absurd heq (by decide)

end OscKernel.Proc
