import OscKernel.NodeLists

/-!
# Tasks

`add_task` and `execute_task` of `tasks.c`: a list of callbacks in the order of their priorities, of which
the first is taken off and called. A callback may itself add and execute tasks, so the nodes whose callback
has not returned form a stack.
-/

namespace OscKernel.Tasks

open ByteOrder SortedLinks
open Vfs (Heap)
open NodeLists (Placed Fresh)

/-- The size of `struct Task` and the offsets of its fields behind `prev` and `next`. -/
def nodeSize : ℕ := 32
def offCallback : ℕ := 16
def offPriority : ℕ := 24

def callback (m : ByteMem) (a : ℕ) : ℕ := word m (a + offCallback)

def priority (m : ByteMem) (a : ℕ) : ℤ := (Int32.ofNat (value (m.read (a + offPriority) 4))).toInt

def setCallback (m : ByteMem) (a v : ℕ) : ByteMem := setWord m (a + offCallback) v

def setPriority (m : ByteMem) (a : ℕ) (p : Int32) : ByteMem :=
  m.write (a + offPriority) (bytes 4 p.toUInt32.toNat)

def layout : Layout ℤ where
  size := nodeSize
  key := priority
  links_le := by decide
  key_congr := fun {m m' a} h => by
    have hread : m'.read (a + offPriority) 4 = m.read (a + offPriority) 4 :=
      ByteMem.read_congr _ _ fun x hlo hhi => by
        simp only [offPriority, nodeSize] at hlo hhi h
        exact h x (by omega) (by omega)
    rw [priority, priority, hread]

/-- `running` are the nodes whose callback has not returned, the innermost first. -/
structure State where
  mem : ByteMem
  heap : Heap
  taskHead : ℕ
  running : List ℕ

/-- The fields of a new node that are set before it goes on the list. -/
def fillNode (m : ByteMem) (node : ℕ) (callback : UInt64) (priority : Int32) : ByteMem :=
  setPriority (setCallback m node callback.toNat) node priority

def addTask (s : State) (callback : UInt64) (priority : Int32) : State :=
  let r := s.heap.alloc nodeSize
  if r.2 = 0 then { s with heap := r.1 }
  else
    let newTask := r.2
    let m := fillNode s.mem newTask callback priority
    let l := link layout m s.taskHead newTask s.heap.live.length
    { s with mem := l.1, heap := r.1, taskHead := l.2.1 }

def executeTask (s : State) : State :=
  { s with
    mem := unlink s.mem s.taskHead
    taskHead := next s.mem s.taskHead
    running := s.taskHead :: s.running }

def executeReturn (s : State) (curr : ℕ) (rest : List ℕ) : State :=
  { s with heap := s.heap.free curr, running := rest }

/-- `ok` is a condition on the calls of `add_task`: on the state and on the priority. A call of
`execute_task` on the empty list goes through a null pointer, and no state follows it. -/
inductive Step (ok : State → ℤ → Prop) : State → State → Prop
  | add {s : State} (callback : UInt64) (priority : Int32) (hok : ok s priority.toInt) :
      Step ok s (addTask s callback priority)
  | execute {s : State} (hhead : s.taskHead ≠ 0) : Step ok s (executeTask s)
  | ret {s : State} {curr : ℕ} {rest : List ℕ} (hrunning : s.running = curr :: rest) :
      Step ok s (executeReturn s curr rest)

structure State.Initial (s : State) : Prop where
  heap : s.heap.Ok
  taskHead : s.taskHead = 0
  running : s.running = []

variable {s s' : State} {l : List ℕ} {m : ByteMem} {node x : ℕ} {c : UInt64} {p : Int32}

theorem fillNode_outside (hx : x < node ∨ node + layout.size ≤ x) : fillNode m node c p x = m x := by
  have hsize : layout.size = 32 := rfl
  rw [fillNode, setPriority, ByteMem.write_outside _ _ _ (by rw [bytes_length, offPriority]; omega),
    setCallback, setWord_outside (by rw [offCallback]; omega)]

theorem priority_fillNode (m : ByteMem) (node : ℕ) (c : UInt64) (p : Int32) :
    priority (fillNode m node c p) node = p.toInt := by
  have hread := ByteMem.read_write_same (setCallback m node c.toNat) (node + offPriority)
    (bytes 4 p.toUInt32.toNat)
  rw [bytes_length] at hread
  rw [priority, fillNode, setPriority, hread, value_bytes_of_lt p.toUInt32.toNat_lt]
  refine congrArg Int32.toInt ?_
  apply Int32.toBitVec.inj
  exact BitVec.ofNat_toNat 32 p.toBitVec

theorem State.Initial.placed (h : s.Initial) : Placed layout s.mem s.heap s.taskHead [] s.running := by
  rw [h.taskHead, h.running]
  exact Placed.empty h.heap

/-- A call of `add_task` that gets a node links it. -/
theorem addTask_cases (hp : Placed layout s.mem s.heap s.taskHead l s.running) (c : UInt64) (p : Int32) :
    (s.heap.alloc nodeSize).2 = 0 ∧ addTask s c p = { s with heap := (s.heap.alloc nodeSize).1 } ∨
      ∃ h' node m₁, Fresh layout s.mem s.heap l s.running h' node m₁ ∧
        (s.heap.alloc nodeSize).2 ≠ 0 ∧ priority m₁ node = p.toInt ∧
        addTask s c p = { s with
          mem := (link layout m₁ s.taskHead node s.heap.live.length).1
          heap := h'
          taskHead := (link layout m₁ s.taskHead node s.heap.live.length).2.1 } := by
  by_cases hne : (s.heap.alloc nodeSize).2 = 0
  · refine Or.inl ⟨hne, ?_⟩
    rw [addTask]
    exact if_pos hne
  · refine Or.inr ⟨_, _, fillNode s.mem (s.heap.alloc nodeSize).2 c p,
      hp.fresh (by decide) rfl hne fun x hx => fillNode_outside hx, hne, priority_fillNode .., ?_⟩
    rw [addTask]
    exact if_neg hne

end OscKernel.Tasks
