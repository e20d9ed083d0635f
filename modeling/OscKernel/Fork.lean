import OscKernel.ByteOrder
import OscKernel.Signals

/-!
# Creating and forking threads

`thread_create` and `sys_fork` fill a control block field by field. The control blocks are a map from
addresses, which also has what the memory holds that `alloc` hands out, and the stacks are bytes of the
memory.
-/

namespace OscKernel.Proc

open Vfs (threadMaxFd threadStackSize sizeofThreadTask sizeofTrapFrame)
open ByteOrder (word setWord bytes)

def defaultPriority : ℕ := 10
def taskReady : ℕ := 0

def spEl0Offset : ℕ := 31 * 8

structure ForkSymbols extends Symbols where
  syscallForkEnd : BitVec 64

/-- `threads` are the control blocks that have been filled and not been freed. -/
@[ext]
structure Threads where
  fs : Vfs.State
  blocks : ℕ → ThreadTask
  threads : List ℕ
  readyQueue : List ℕ
  threadCnt : ℕ
  current : ℕ

namespace Threads

def alloc (s : Threads) (size : ℕ) : Threads × ℕ :=
  ({ s with fs := (s.fs.alloc size).1 }, (s.fs.alloc size).2)

def free (s : Threads) (p : ℕ) : Threads := { s with fs := s.fs.free p }

def setBlock (s : Threads) (t : ℕ) (f : ThreadTask → ThreadTask) : Threads :=
  { s with blocks := Function.update s.blocks t (f (s.blocks t)) }

def setMem (s : Threads) (f : ByteMem → ByteMem) : Threads := { s with fs := { s.fs with mem := f s.fs.mem } }

def running (s : Threads) : ThreadTask := s.blocks s.current

def addThreadTask (s : Threads) (t : ℕ) : Threads :=
  let linked := match s.readyQueue.getLast? with
    | none => s
    | some c => s.setBlock c fun b => { b with next := t }
  { linked.setBlock t fun b => { b with next := 0 } with readyQueue := s.readyQueue ++ [t] }

def takeId (s : Threads) (t : ℕ) : Threads :=
  { s.setBlock t fun b => { b with id := s.threadCnt } with threadCnt := (s.threadCnt + 1) % 2 ^ 32 }

/-- The beginning that `thread_create` and `sys_fork` have in common: the control block, of which `fill`
writes some fields, and the stacks. -/
def takeBlocks (s : Threads) (fill : ThreadTask → ThreadTask) : Threads × Option ℕ :=
  let (s, task) := s.alloc sizeofThreadTask
  if task = 0 then (s, none)
  else
    let (s, kernelStack) := ((s.takeId task).setBlock task fill).alloc threadStackSize
    let s := s.setBlock task fun b => { b with kernelStack }
    if kernelStack = 0 then (s.free task, none)
    else
      let (s, userStack) := s.alloc threadStackSize
      let s := s.setBlock task fun b => { b with userStack }
      if userStack = 0 then ((s.free kernelStack).free task, none)
      else (s, some task)

end Threads

def startTask (b : ThreadTask) : ThreadTask :=
  { b with state := taskReady, counter := defaultPriority, priority := defaultPriority, preemptCount := 1 }

def firstHandlers (k : Symbols) (i : Fin sigNum) : BitVec 64 :=
  if i.val = sigkill then k.defaultSigkillHandler else k.defaultHandler

/-- The end of `thread_create`, from the signal handling on, for a block that has its stacks. -/
def threadPrepare (k : Symbols) (s : Threads) (task : ℕ) (callback : BitVec 64) : Option Threads := do
  let (s, sigFrame) := s.alloc sizeofTrapFrame
  let s := s.setBlock task fun b =>
    { b with
      pendingSig := 0
      sigHandlers := firstHandlers k
      sigFrame := .ofNat 64 sigFrame
      next := 0
      cwd := s.fs.root }
  let (fs, files) ← Vfs.openStdFiles s.fs { cwd := (s.blocks task).cwd, fdTable := fun _ => 0 }
  let s := { s with fs }.setBlock task fun b =>
    { b with
      fdTable := files.fdTable
      cpuContext :=
        { saved := fun _ => 0, lr := callback, sp := .ofNat 64 (b.userStack + threadStackSize),
          fp := .ofNat 64 (b.userStack + threadStackSize) } }
  some { s.addThreadTask task with threads := task :: s.threads }

def threadCreate (k : Symbols) (s : Threads) (callback : BitVec 64) : Option (Threads × Option ℕ) :=
  match s.takeBlocks startTask with
  | (s, none) => some (s, none)
  | (s, some task) => (threadPrepare k s task callback).map fun s => (s, some task)

/-- Where the entry of a system call has saved the trap frame in the kernel stack of the thread, and the stack
pointer in its handler. -/
structure Entry where
  frame : ℕ
  sp : ℕ
  below : sp ≤ frame
  fits : frame + sizeofTrapFrame ≤ threadStackSize

def rebase (new old addr : ℕ) : ℕ := (new + (addr + 2 ^ 64 - old)) % 2 ^ 64

def copyStacks (m : ByteMem) (parent : ThreadTask) (kernelStack userStack : ℕ) : ByteMem :=
  (m.copy userStack parent.userStack threadStackSize).copy kernelStack parent.kernelStack threadStackSize

/-- The stacks of the child, and its trap frame with what the call returns in the child. -/
def forkStacks (m : ByteMem) (parent : ThreadTask) (kernelStack userStack : ℕ) (e : Entry) : ByteMem :=
  let m := copyStacks m parent kernelStack userStack
  let m := m.copy (kernelStack + e.frame) (parent.kernelStack + e.frame) sizeofTrapFrame
  let m := setWord m (kernelStack + e.frame) 0
  let spEl0 := word m (parent.kernelStack + e.frame + spEl0Offset)
  setWord m (kernelStack + e.frame + spEl0Offset) (rebase userStack parent.userStack spEl0)

def forkBlock (k : ForkSymbols) (parent : ThreadTask) (e : Entry) (b : ThreadTask) : ThreadTask :=
  { b with
    pendingSig := parent.pendingSig
    sigHandlers := parent.sigHandlers
    next := 0
    cpuContext :=
      { parent.cpuContext with
        sp := .ofNat 64 (b.kernelStack + e.sp)
        fp := parent.cpuContext.fp
        lr := k.syscallForkEnd } }

def Threads.setX0 (s : Threads) (e : Entry) (v : ℕ) : Threads :=
  s.setMem fun m => setWord m (s.running.kernelStack + e.frame) v

/-- The fields of the child that `sys_fork` writes before it has the stacks. -/
def startChild (parent b : ThreadTask) : ThreadTask :=
  { b with
    state := taskReady
    counter := parent.counter
    priority := parent.priority
    preemptCount := parent.preemptCount }

def forkEnd (k : ForkSymbols) (s : Threads) (child : ℕ) (e : Entry) : Threads × Option ℕ :=
  let s := s.setBlock child (forkBlock k s.running e)
  let s := s.setMem fun m =>
    forkStacks m s.running (s.blocks child).kernelStack (s.blocks child).userStack e
  let s := { s.addThreadTask child with threads := child :: s.threads }
  (s.setX0 e (s.blocks child).id, some child)

def sysFork (k : ForkSymbols) (s : Threads) (e : Entry) : Threads × Option ℕ :=
  if s.current = 0 then (s, none)
  else
    match s.takeBlocks (startChild s.running) with
    | (s, none) => (s.setX0 e (2 ^ 64 - 1), none)
    | (s, some child) => forkEnd k s child e

end OscKernel.Proc
