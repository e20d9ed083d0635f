import Mathlib.Tactic
import OscKernel.LinkedQueue
import OscKernel.Runs

/-!
# The scheduler

`sched.c`, with the ends of `sys_fork`, `create_shell_thread` and `_exec`. A pointer to a control block is
`none` for null. The field `next` of the control blocks is a map of its own, and so are the blocks that
`alloc` has handed out: a successful `alloc` returns any block that is not in use. A function whose loop
does not end, or that uses a null pointer, returns `none`.
-/

namespace OscKernel.Sched

open Linked

inductive TaskState where
  | ready | running | blocked | exited
  deriving DecidableEq, Repr

/-- The fields of `struct ThreadTask` that the scheduler uses, except for `next`. -/
structure ThreadTask where
  id : ℕ
  state : TaskState
  kernelStack : ℕ
  userStack : ℕ

inductive Queue where
  | ready | wait | zombie

/-- `cells` are the control blocks in use, and `boot` is the one that `sched_init` makes by itself. -/
structure State where
  tasks : ℕ → ThreadTask
  next : ℕ → Option ℕ
  readyQueue : Option ℕ
  waitQueue : Option ℕ
  zombieQueue : Option ℕ
  threadCnt : ℕ
  current : Option ℕ
  live : List ℕ
  cells : List ℕ
  boot : Option ℕ

namespace State

def head (s : State) : Queue → Option ℕ
  | .ready => s.readyQueue
  | .wait => s.waitQueue
  | .zombie => s.zombieQueue

def setHead (s : State) (q : Queue) (h : Option ℕ) : State :=
  match q with
  | .ready => { s with readyQueue := h }
  | .wait => { s with waitQueue := h }
  | .zombie => { s with zombieQueue := h }

def setState (s : State) (t : ℕ) (x : TaskState) : State :=
  { s with tasks := Function.update s.tasks t { s.tasks t with state := x } }

def rounds (s : State) : ℕ := s.cells.length + 1

def addThreadTask (s : State) (q : Queue) (t : ℕ) : Option State :=
  match s.head q with
  | none => some { s.setHead q (some t) with next := Function.update s.next t none }
  | some h => do
      let c ← last s.next s.rounds h
      some { s with next := Function.update (Function.update s.next c (some t)) t none }

def popThreadTask (s : State) (q : Queue) : State × Option ℕ :=
  match s.head q with
  | none => (s, none)
  | some t => (s.setHead q (s.next t), some t)

def rmThreadTask (s : State) (q : Queue) (t : ℕ) : Option State :=
  match before s.next t s.rounds none (s.head q) with
  | none => none
  | some none => some s
  | some (some none) => some (s.setHead q (s.next t))
  | some (some (some p)) => some { s with next := Function.update s.next p (s.next t) }

def getThreadTaskById (s : State) (pid : ℕ) : Option (Option ℕ) := do
  match ← find s.next (fun t => (s.tasks t).id = pid % 2 ^ 32) s.rounds s.readyQueue with
  | some t => some (some t)
  | none => find s.next (fun t => (s.tasks t).id = pid % 2 ^ 32) s.rounds s.waitQueue

/-- A new control block with its stacks, filled by `thread_create` or `sys_fork`. -/
def newThread (s : State) (t kernelStack userStack : ℕ) : State :=
  { s with
    tasks := Function.update s.tasks t ⟨s.threadCnt, .ready, kernelStack, userStack⟩
    next := Function.update s.next t none
    threadCnt := (s.threadCnt + 1) % 2 ^ 32
    live := t :: kernelStack :: userStack :: s.live
    cells := t :: s.cells }

/-- `thread_create`, when `alloc` returns the blocks. -/
def threadCreate (s : State) (t kernelStack userStack : ℕ) : Option State :=
  (s.newThread t kernelStack userStack).addThreadTask .ready t

def sysFork (s : State) (t kernelStack userStack : ℕ) : Option State :=
  match s.current with
  | none => some s
  | some _ => (s.newThread t kernelStack userStack).addThreadTask .ready t

/-- The end of `create_shell_thread` and of `_exec`: the new thread is entered directly. -/
def jump (s : State) (t kernelStack userStack : ℕ) : Option State := do
  let s ← s.threadCreate t kernelStack userStack
  some { s with current := some t }

/-- The part of `schedule` that puts the thread that is left on a queue. -/
def leave (s : State) (prev : ℕ) : Option State :=
  match (s.tasks prev).state with
  | .running => (s.setState prev .ready).addThreadTask .ready prev
  | .blocked => s.addThreadTask .wait prev
  | .exited => s.addThreadTask .zombie prev
  | .ready => some s

def schedule (s : State) : Option State :=
  match s.current with
  | none =>
      match s.readyQueue with
      | none => none
      | some t => some { s.setState t .running with current := some t }
  | some prev =>
      match s.readyQueue with
      | none => some s
      | some next =>
          if next = prev then some s
          else do
            let s ← s.leave prev
            let s := s.setState next .running
            let (s, next) := s.popThreadTask .ready
            some { s with current := next }

def exit (s : State) : Option State :=
  match s.current with
  | none => some s
  | some t => do
      let s ← s.rmThreadTask .ready t
      let s ← s.rmThreadTask .wait t
      (s.setState t .exited).schedule

def kill (s : State) (pid : ℕ) : Option (State × ℤ) := do
  match ← s.getThreadTaskById pid with
  | none => some (s, -1)
  | some t => do
      let s ← s.rmThreadTask .ready t
      let s ← s.rmThreadTask .wait t
      let s := s.setState t .exited
      let s ← if s.current = some t then s.schedule else s.addThreadTask .zombie t
      some (s, 0)

def free (s : State) (p : ℕ) : State := { s with live := s.live.filter (· ≠ p) }

def freeThread (s : State) (z : ℕ) : State :=
  let s := ((s.free (s.tasks z).kernelStack).free (s.tasks z).userStack).free z
  { s with cells := s.cells.filter (· ≠ z), boot := if s.boot = some z then none else s.boot }

def killZombiesLoop : ℕ → State → Option State
  | 0, _ => none
  | rounds + 1, s =>
      match s.popThreadTask .zombie with
      | (s, none) => some s
      | (s, some z) => killZombiesLoop rounds (s.freeThread z)

def killZombies (s : State) : Option State := killZombiesLoop s.rounds s

end State

/-- `sched_init`, when `alloc` returns `boot` and then the blocks of the thread for `idle`. The fields of
`boot` but one stay as its memory has them. -/
def schedInit (tasks : ℕ → ThreadTask) (next : ℕ → Option ℕ) (live : List ℕ)
    (boot t kernelStack userStack : ℕ) : Option State := do
  let s : State := ⟨tasks, next, none, none, none, 0, none, boot :: live, [boot], some boot⟩
  let s ← s.threadCreate t kernelStack userStack
  some ({ s with current := some boot }.setState boot .running)

inductive Act where
  | create (t kernelStack userStack : ℕ)
  | fork (t kernelStack userStack : ℕ)
  | jump (t kernelStack userStack : ℕ)
  | schedule
  | exit
  | kill (pid : ℕ)
  | reap

def State.step (s : State) : Act → Option State
  | .create t k u => s.threadCreate t k u
  | .fork t k u => s.sysFork t k u
  | .jump t k u => s.jump t k u
  | .schedule => s.schedule
  | .exit => s.exit
  | .kill pid => (s.kill pid).map Prod.fst
  | .reap => s.killZombies

structure Fresh (live : List ℕ) (t k u : ℕ) : Prop where
  ne_zero : t ≠ 0 ∧ k ≠ 0 ∧ u ≠ 0
  distinct : t ≠ k ∧ t ≠ u ∧ k ≠ u
  unused : t ∉ live ∧ k ∉ live ∧ u ∉ live

def State.Valid (s : State) : Act → Prop
  | .create t k u | .fork t k u | .jump t k u => Fresh s.live t k u
  | _ => True

def Step (s : State) (a : Act) (s' : State) : Prop := s.Valid a ∧ s.step a = some s'

/-- A state that `sched_init` leaves, whatever its memory held before. -/
def State.Initial (s : State) : Prop :=
  ∃ tasks next live boot t k u, 0 ∉ live ∧ boot ≠ 0 ∧ boot ∉ live ∧ Fresh (boot :: live) t k u ∧
    schedInit tasks next live boot t k u = some s

end OscKernel.Sched
