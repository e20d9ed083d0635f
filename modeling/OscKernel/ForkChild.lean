import OscKernel.ForkStacks
import OscKernel.ThreadBlocks

/-!
# The control block of a child

`sys_fork` fills the control block of the child field by field, and leaves `sig_frame`, `cwd` and `fd_table`
as `alloc` has handed the block out. Of the other control blocks at most a link of the ready queue is written.
-/

namespace OscKernel.Proc

open Vfs (Extends threadStackSize sizeofThreadTask)
open ByteOrder (setWord)

def newBlock (st : Vfs.State) : ℕ := (st.alloc sizeofThreadTask).2

def newKernelStack (st : Vfs.State) : ℕ := ((st.alloc sizeofThreadTask).1.alloc threadStackSize).2

def newUserStack (st : Vfs.State) : ℕ :=
  (((st.alloc sizeofThreadTask).1.alloc threadStackSize).1.alloc threadStackSize).2

def newOwn (st : Vfs.State) : List (ℕ × ℕ) :=
  [(newUserStack st, threadStackSize), (newKernelStack st, threadStackSize), (newBlock st, sizeofThreadTask)]

/-- The control block of a child in a block that holds `held`. -/
def childTask (k : ForkSymbols) (parent held : ThreadTask) (id kernelStack userStack : ℕ) (e : Entry) :
    ThreadTask :=
  { held with
    cpuContext :=
      { parent.cpuContext with
        sp := .ofNat 64 (kernelStack + e.sp)
        lr := k.syscallForkEnd }
    id := id
    state := taskReady
    counter := parent.counter
    priority := parent.priority
    preemptCount := parent.preemptCount
    kernelStack := kernelStack
    userStack := userStack
    pendingSig := parent.pendingSig
    sigHandlers := parent.sigHandlers
    next := 0 }

variable {k : ForkSymbols} {s s' : Threads} {e : Entry} {t u c : ℕ}

/-- What a call of `sys_fork` leaves that has made the child `c`. -/
structure Forked (k : ForkSymbols) (s : Threads) (e : Entry) (s' : Threads) (c : ℕ) : Prop where
  block_eq : c = newBlock s.fs
  extend : Extends s.fs (Vfs.beforeFrame s.fs) (newOwn s.fs)
  heap : s'.fs.heap = (Vfs.beforeFrame s.fs).heap
  mem : s'.fs.mem = setWord (forkStacks s.fs.mem s.running (newKernelStack s.fs) (newUserStack s.fs) e)
    (s.running.kernelStack + e.frame) s.threadCnt
  child : s'.blocks c =
    childTask k s.running (s.blocks c) s.threadCnt (newKernelStack s.fs) (newUserStack s.fs) e
  other : ∀ t, t ≠ c → ∃ n, s'.blocks t = { s.blocks t with next := n }
  threads : s'.threads = c :: s.threads
  queue : s'.readyQueue = s.readyQueue ++ [c]

theorem Threads.setBlock_self (s : Threads) (t : ℕ) (f : ThreadTask → ThreadTask) :
    (s.setBlock t f).blocks t = f (s.blocks t) :=
  Function.update_self ..

theorem Threads.setBlock_of_ne (s : Threads) (f : ThreadTask → ThreadTask) (h : u ≠ t) :
    (s.setBlock t f).blocks u = s.blocks u :=
  Function.update_of_ne h ..

theorem Threads.takeId_self (s : Threads) (t : ℕ) :
    (s.takeId t).blocks t = { s.blocks t with id := s.threadCnt } :=
  Function.update_self ..

theorem Threads.takeId_of_ne (s : Threads) (h : u ≠ t) : (s.takeId t).blocks u = s.blocks u :=
  Function.update_of_ne h ..

theorem Threads.alloc_blocks (s : Threads) (n : ℕ) : (s.alloc n).1.blocks = s.blocks := rfl

theorem Threads.addThreadTask_fields (s : Threads) (t : ℕ) :
    (s.addThreadTask t).fs = s.fs ∧ (s.addThreadTask t).threads = s.threads ∧
      (s.addThreadTask t).current = s.current ∧ (s.addThreadTask t).threadCnt = s.threadCnt ∧
      (s.addThreadTask t).readyQueue = s.readyQueue ++ [t] := by
  rw [addThreadTask]
  cases s.readyQueue.getLast? with
  | none => exact ⟨rfl, rfl, rfl, rfl, rfl⟩
  | some c => exact ⟨rfl, rfl, rfl, rfl, rfl⟩

theorem Threads.addThreadTask_self (s : Threads) (h : t ∉ s.readyQueue) :
    (s.addThreadTask t).blocks t = { s.blocks t with next := 0 } := by
  rw [addThreadTask]
  cases hlast : s.readyQueue.getLast? with
  | none => exact Function.update_self ..
  | some c =>
      have hne : t ≠ c := fun heq => h (heq ▸ List.mem_of_getLast? hlast)
      change Function.update (Function.update s.blocks c _) t _ t = _
      rw [Function.update_self]
      change ({ Function.update s.blocks c _ t with next := 0 } : ThreadTask) = _
      rw [Function.update_of_ne hne]

/-- Of another control block at most the link is written. -/
theorem Threads.addThreadTask_other (s : Threads) (h : u ≠ t) :
    ∃ n, (s.addThreadTask t).blocks u = { s.blocks u with next := n } := by
  rw [addThreadTask]
  cases hlast : s.readyQueue.getLast? with
  | none => exact ⟨(s.blocks u).next, Function.update_of_ne h ..⟩
  | some c =>
      change ∃ n, Function.update (Function.update s.blocks c _) t _ u = _
      rw [Function.update_of_ne h]
      by_cases hc : u = c
      · rw [hc, Function.update_self]
        exact ⟨t, rfl⟩
      · rw [Function.update_of_ne hc]
        exact ⟨(s.blocks u).next, rfl⟩

def Threads.withKernelStack (s : Threads) (fill : ThreadTask → ThreadTask) : Threads :=
  let w := ((s.alloc sizeofThreadTask).1.takeId (newBlock s.fs)).setBlock (newBlock s.fs) fill
  let r := w.alloc threadStackSize
  r.1.setBlock (newBlock s.fs) fun b => { b with kernelStack := r.2 }

def Threads.withStacks (s : Threads) (fill : ThreadTask → ThreadTask) : Threads :=
  let r := (s.withKernelStack fill).alloc threadStackSize
  r.1.setBlock (newBlock s.fs) fun b => { b with userStack := r.2 }

theorem Threads.withKernelStack_of_ne (s : Threads) (fill : ThreadTask → ThreadTask) (h : u ≠ newBlock s.fs) :
    (s.withKernelStack fill).blocks u = s.blocks u := by
  rw [withKernelStack, setBlock_of_ne _ _ h, alloc_blocks, setBlock_of_ne _ _ h, takeId_of_ne _ h]
  rfl

theorem Threads.withStacks_of_ne (s : Threads) (fill : ThreadTask → ThreadTask) (h : u ≠ newBlock s.fs) :
    (s.withStacks fill).blocks u = s.blocks u := by
  rw [withStacks, setBlock_of_ne _ _ h, alloc_blocks, s.withKernelStack_of_ne fill h]

theorem Threads.withStacks_self (s : Threads) (fill : ThreadTask → ThreadTask) :
    (s.withStacks fill).blocks (newBlock s.fs) =
      { fill { s.blocks (newBlock s.fs) with id := s.threadCnt } with
        kernelStack := newKernelStack s.fs
        userStack := newUserStack s.fs } := by
  rw [withStacks, setBlock_self, alloc_blocks, withKernelStack, setBlock_self, alloc_blocks, setBlock_self,
    takeId_self]
  rfl

theorem Threads.withStacks_fields (s : Threads) (fill : ThreadTask → ThreadTask) :
    (s.withStacks fill).fs = Vfs.beforeFrame s.fs ∧ (s.withStacks fill).threads = s.threads ∧
      (s.withStacks fill).readyQueue = s.readyQueue ∧ (s.withStacks fill).current = s.current :=
  ⟨rfl, rfl, rfl, rfl⟩

theorem Threads.takeBlocks_eq (s : Threads) (fill : ThreadTask → ThreadTask) : s.takeBlocks fill =
    if newBlock s.fs = 0 then ((s.alloc sizeofThreadTask).1, none)
    else if newKernelStack s.fs = 0 then ((s.withKernelStack fill).free (newBlock s.fs), none)
    else if newUserStack s.fs = 0 then
      (((s.withStacks fill).free (newKernelStack s.fs)).free (newBlock s.fs), none)
    else (s.withStacks fill, some (newBlock s.fs)) := rfl

theorem newBlock_fresh {st : Vfs.State} (hok : st.heap.Ok) (h0 : newBlock st ≠ 0) :
    Extends.Fresh st (newBlock st) := by
  rcases Vfs.State.alloc_cases hok (n := sizeofThreadTask) (by decide) with
    ⟨st₁, heq, -⟩ | ⟨st₁, task, heq, -, hfresh, -⟩
  · exact absurd (by rw [newBlock, heq]) h0
  · rwa [newBlock, heq]

structure Kept (s s' : Threads) : Prop where
  extend : Extends s.fs s'.fs []
  blocks : ∀ b ∈ s.fs.heap.live, s'.blocks b.1 = s.blocks b.1
  threads : s'.threads = s.threads
  queue : s'.readyQueue = s.readyQueue

/-- There is no memory, and the blocks in use are the same, or there is a thread with its stacks. -/
theorem Threads.takeBlocks_cases (s : Threads) (fill : ThreadTask → ThreadTask) (hok : s.fs.heap.Ok) :
    (∃ s', s.takeBlocks fill = (s', none) ∧ Kept s s') ∨
      (s.takeBlocks fill = (s.withStacks fill, some (newBlock s.fs)) ∧
        Extends s.fs (Vfs.beforeFrame s.fs) (newOwn s.fs)) := by
  rw [takeBlocks_eq]
  cases Vfs.takesStacks hok with
  | noTask h₁ hext =>
      rw [if_pos (by rw [newBlock, h₁])]
      refine Or.inl ⟨_, rfl, ?_, fun _ _ => rfl, rfl, rfl⟩
      change Extends s.fs (s.fs.alloc sizeofThreadTask).1 []
      rwa [h₁]
  | @noKernelStack _ _ task h₁ htask h₂ hext =>
      have hb : newBlock s.fs = task := by rw [newBlock, h₁]
      have hfresh := newBlock_fresh hok (hb ▸ htask)
      rw [if_neg (hb ▸ htask), if_pos (by rw [newKernelStack, h₁, h₂])]
      refine Or.inl ⟨_, rfl, ?_, fun b hmem => s.withKernelStack_of_ne fill (hfresh b hmem), rfl, rfl⟩
      change Extends s.fs (((s.fs.alloc sizeofThreadTask).1.alloc threadStackSize).1.free (newBlock s.fs)) []
      rwa [h₁, h₂, hb]
  | @noUserStack _ _ _ task kernelStack h₁ htask h₂ hkernel h₃ hext =>
      have hb : newBlock s.fs = task := by rw [newBlock, h₁]
      have hk : newKernelStack s.fs = kernelStack := by rw [newKernelStack, h₁, h₂]
      have hfresh := newBlock_fresh hok (hb ▸ htask)
      rw [if_neg (hb ▸ htask), if_neg (hk ▸ hkernel), if_pos (by rw [newUserStack, h₁, h₂, h₃])]
      refine Or.inl ⟨_, rfl, ?_, fun b hmem => s.withStacks_of_ne fill (hfresh b hmem), rfl, rfl⟩
      change Extends s.fs (((Vfs.beforeFrame s.fs).free (newKernelStack s.fs)).free (newBlock s.fs)) []
      rwa [Vfs.beforeFrame, h₁, h₂, h₃, hb, hk]
  | @all _ _ _ task kernelStack userStack h₁ htask h₂ hkernel h₃ huser hext =>
      have hb : newBlock s.fs = task := by rw [newBlock, h₁]
      have hk : newKernelStack s.fs = kernelStack := by rw [newKernelStack, h₁, h₂]
      have hu : newUserStack s.fs = userStack := by rw [newUserStack, h₁, h₂, h₃]
      rw [if_neg (hb ▸ htask), if_neg (hk ▸ hkernel), if_neg (hu ▸ huser)]
      refine Or.inr ⟨rfl, ?_⟩
      rwa [Vfs.beforeFrame, newOwn, hb, hk, hu, h₁, h₂, h₃]

/-- What the end of a fork leaves, from a state in which the child has its stacks. -/
theorem forkEnd_spec (hcur : s.current ≠ t) (hqueue : t ∉ s.readyQueue) (h : forkEnd k s t e = (s', some c)) :
    c = t ∧ s'.fs.heap = s.fs.heap ∧
      s'.fs.mem = setWord
        (forkStacks s.fs.mem s.running (s.blocks t).kernelStack (s.blocks t).userStack e)
        (s.running.kernelStack + e.frame) (s.blocks t).id ∧
      s'.blocks t = forkBlock k s.running e (s.blocks t) ∧
      (∀ u, u ≠ t → ∃ n, s'.blocks u = { s.blocks u with next := n }) ∧ s'.threads = t :: s.threads ∧
      s'.readyQueue = s.readyQueue ++ [t] ∧ s'.threadCnt = s.threadCnt := by
  obtain ⟨rfl, hc⟩ := Prod.mk.inj h
  obtain rfl := Option.some.inj hc
  clear h hc
  set s₁ := s.setBlock t (forkBlock k s.running e) with hs₁
  have hself : s₁.blocks t = forkBlock k s.running e (s.blocks t) := s.setBlock_self t _
  have hother : ∀ u, u ≠ t → s₁.blocks u = s.blocks u := fun u hu => s.setBlock_of_ne _ hu
  have hrunning : s₁.running = s.running := hother s.current hcur
  set s₂ := s₁.setMem fun m => forkStacks m s₁.running (s₁.blocks t).kernelStack (s₁.blocks t).userStack e
    with hs₂
  obtain ⟨hfs, hthreads, hcurrent, hcnt, hready⟩ := s₂.addThreadTask_fields t
  have hblock : (s₂.addThreadTask t).blocks t = forkBlock k s.running e (s.blocks t) := by
    rw [s₂.addThreadTask_self hqueue]
    change ({ s₁.blocks t with next := 0 } : ThreadTask) = _
    rw [hself]
    rfl
  have hlinked : ∀ u, u ≠ t → ∃ n, (s₂.addThreadTask t).blocks u = { s.blocks u with next := n } := by
    intro u hu
    obtain ⟨n, hn⟩ := s₂.addThreadTask_other hu
    refine ⟨n, hn.trans ?_⟩
    change ({ s₁.blocks u with next := n } : ThreadTask) = _
    rw [hother u hu]
  have hstack : ((s₂.addThreadTask t).blocks s.current).kernelStack = s.running.kernelStack := by
    obtain ⟨n, hn⟩ := hlinked s.current hcur
    rw [hn]
    rfl
  refine ⟨rfl, ?_, ?_, hblock, hlinked, rfl, hready, hcnt⟩
  · change (s₂.addThreadTask t).fs.heap = _
    rw [hfs]
    rfl
  · change setWord (s₂.addThreadTask t).fs.mem
      (((s₂.addThreadTask t).blocks (s₂.addThreadTask t).current).kernelStack + e.frame)
      ((s₂.addThreadTask t).blocks t).id = _
    rw [hcurrent, hfs, hblock]
    change setWord (forkStacks s.fs.mem s₁.running (s₁.blocks t).kernelStack (s₁.blocks t).userStack e)
      (((s₂.addThreadTask t).blocks s.current).kernelStack + e.frame) (s.blocks t).id = _
    rw [hstack, hrunning, hself]
    rfl

theorem sysFork_forked (hok : s.fs.heap.Ok) (hcur : s.current ≠ newBlock s.fs)
    (hqueue : newBlock s.fs ∉ s.readyQueue) (h : sysFork k s e = (s', some c)) : Forked k s e s' c := by
  rw [sysFork] at h
  split_ifs at h
  · cases h
  · rcases s.takeBlocks_cases (startChild s.running) hok with ⟨s₁, heq, -⟩ | ⟨heq, hext⟩
    · rw [heq] at h
      cases h
    rw [heq] at h
    have hself := s.withStacks_self (startChild s.running)
    have hother : ∀ u, u ≠ newBlock s.fs → (s.withStacks (startChild s.running)).blocks u = s.blocks u :=
      fun u hu => s.withStacks_of_ne _ hu
    have hrunning : (s.withStacks (startChild s.running)).running = s.running := hother s.current hcur
    obtain ⟨hfs, hthreads, hready, hcurrent⟩ := s.withStacks_fields (startChild s.running)
    generalize s.withStacks (startChild s.running) = w at h hself hother hrunning hfs hthreads hready hcurrent
    rw [← hcurrent] at hcur
    rw [← hready] at hqueue
    obtain ⟨rfl, hheap, hmem, hblock, hlinked, hthreads', hready', -⟩ := forkEnd_spec hcur hqueue h
    rw [hrunning, hself] at hmem hblock
    rw [hfs] at hheap
    have hbefore : (Vfs.beforeFrame s.fs).mem = s.fs.mem := rfl
    rw [hfs, hbefore] at hmem
    rw [hthreads] at hthreads'
    rw [hready] at hready'
    refine ⟨rfl, hext, hheap, hmem, hblock, fun u hu => ?_, hthreads', hready'⟩
    rw [← hother u hu]
    exact hlinked u hu

end OscKernel.Proc
