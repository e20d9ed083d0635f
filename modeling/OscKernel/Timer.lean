import OscKernel.ByteOrder
import OscKernel.ClientHeap
import OscKernel.Runs

/-!
# Timers

`add_timer` and `core_timer_handler` of `timer.c`. The nodes of the timer list lie in a byte memory, in
blocks of the heap. A callback may call `add_timer` and may be interrupted by another run of the handler,
so the runs of the handler form a stack. The last four fields of a state are a record of what happened that
the code does not keep.
-/

namespace OscKernel.Timer

open ByteOrder Relation
open Vfs (Heap)

def nodeSize : ℕ := 96
def offNext : ℕ := 8
def offCallback : ℕ := 16
def offMsg : ℕ := 24
def offExpiration : ℕ := 88

def next (m : ByteMem) (a : ℕ) : ℕ := word m (a + offNext)
def callback (m : ByteMem) (a : ℕ) : ℕ := word m (a + offCallback)
def expiration (m : ByteMem) (a : ℕ) : ℕ := word m (a + offExpiration)

def setPrev (m : ByteMem) (a v : ℕ) : ByteMem := setWord m a v
def setNext (m : ByteMem) (a v : ℕ) : ByteMem := setWord m (a + offNext) v
def setCallback (m : ByteMem) (a v : ℕ) : ByteMem := setWord m (a + offCallback) v
def setExpiration (m : ByteMem) (a v : ℕ) : ByteMem := setWord m (a + offExpiration) v

def setMsg (m : ByteMem) (a : ℕ) (msg : List UInt8) : ByteMem := m.write (a + offMsg) (msg ++ [0])

/-- A run of `core_timer_handler`: the counter value it has read, `removed`, and the node whose callback
it is in. -/
structure Frame where
  currTick : ℕ
  removed : Bool
  curr : Option ℕ

structure Added where
  node : ℕ
  callback : UInt64
  due : ℕ
  deriving DecidableEq

structure Fired where
  timer : ℕ
  currTick : ℕ
  callback : ℕ
  deriving DecidableEq

/-- `irq` and `tval` are the timer's interrupt and what it was last set to, `clock` is the last value of
the counter that has been read, and `frames` are the runs of the handler, the innermost first. Timers are
numbered in the order of their calls of `add_timer`; `owner` is the number of the timer that got a node
last. -/
structure State where
  mem : ByteMem
  heap : Heap
  timerHead : ℕ
  needSchedule : Bool
  irq : Bool
  tval : ℕ
  clock : ℕ
  frames : List Frame
  added : List Added
  owner : ℕ → ℕ
  fired : List Fired
  freed : List ℕ

def walk (m : ByteMem) (e : ℕ) : ℕ → ℕ → ℕ
  | 0, curr => curr
  | n + 1, curr =>
      if next m curr ≠ 0 ∧ expiration m (next m curr) < e then walk m e n (next m curr) else curr

def fillNode (m : ByteMem) (node : ℕ) (callback : UInt64) (msg : List UInt8) (due : ℕ) : ByteMem :=
  setCallback (setExpiration (setMsg m node msg) node due) node callback.toNat

/-- The new list: its memory, its head, and `reset`. The last branch sets the field `prev` of the new node
twice, since `curr->next` is the new node by then. -/
def link (m : ByteMem) (head node rounds : ℕ) : ByteMem × ℕ × Bool :=
  if head = 0 then (setNext (setPrev m node 0) node 0, node, true)
  else if expiration m node ≤ expiration m head then
    (setPrev (setPrev (setNext m node head) head node) node 0, node, true)
  else
    let curr := walk m (expiration m node) rounds head
    (setPrev (setNext (setPrev (setNext m node (next m curr)) node curr) curr node) node node, head,
      false)

/-- A call of `add_timer` that reads the counter value `currTick`. The list has no more nodes than the
heap has blocks. -/
def addTimer (s : State) (callback : UInt64) (msg : List UInt8) (tick currTick : ℕ) : State :=
  let r := s.heap.alloc nodeSize
  if r.2 = 0 then { s with heap := r.1 }
  else
    let node := r.2
    let due := currTick + tick
    let m := fillNode s.mem node callback msg (due % 2 ^ 64)
    let l := link m s.timerHead node s.heap.live.length
    { s with
      mem := l.1
      heap := r.1
      timerHead := l.2.1
      irq := true
      tval := if l.2.2 then (expiration l.1 l.2.1 + 2 ^ 64 - currTick) % 2 ^ 64 else s.tval
      clock := currTick
      added := s.added ++ [⟨node, callback, due⟩]
      owner := Function.update s.owner node s.added.length }

def handlerEnter (s : State) (currTick : ℕ) : State :=
  { s with irq := false, clock := currTick, frames := ⟨currTick, false, none⟩ :: s.frames }

def Expired (s : State) (f : Frame) : Prop := s.timerHead ≠ 0 ∧ expiration s.mem s.timerHead ≤ f.currTick

instance (s : State) (f : Frame) : Decidable (Expired s f) := inferInstanceAs (Decidable (_ ∧ _))

/-- One test of the loop: the first node is taken off and its callback is called, or the run ends. A call
of `schedule` at the end is a matter of the scheduler. -/
def handlerLoop (s : State) (f : Frame) (rest : List Frame) : State :=
  if Expired s f then
    let curr := s.timerHead
    let m := if next s.mem curr ≠ 0 then setPrev s.mem (next s.mem curr) 0 else s.mem
    { s with
      mem := m
      timerHead := next s.mem curr
      frames := ⟨f.currTick, true, some curr⟩ :: rest
      fired := s.fired ++ [⟨s.owner curr, f.currTick, callback m curr⟩] }
  else
    let reset := f.removed = true ∧ s.timerHead ≠ 0
    { s with
      tval := if reset then expiration s.mem s.timerHead - f.currTick else s.tval
      irq := if reset then true else s.irq
      needSchedule := false
      frames := rest }

def callbackReturn (s : State) (f : Frame) (rest : List Frame) (curr : ℕ) : State :=
  { s with
    heap := s.heap.free curr
    frames := { f with curr := none } :: rest
    freed := s.freed ++ [s.owner curr] }

def State.Calling (s : State) : Prop := ∀ f ∈ s.frames.head?, f.curr ≠ none

/-- `ok` is a condition on the messages. The counter does not go back, and it does not overflow within
the time of a timer. -/
inductive Step (ok : List UInt8 → Prop) : State → State → Prop
  | add {s : State} (callback : UInt64) (msg : List UInt8) (tick currTick : ℕ) (hcall : s.Calling)
      (hclock : s.clock ≤ currTick) (hlt : currTick + tick < 2 ^ 64)
      (halloc : (s.heap.alloc nodeSize).2 ≠ 0) (hmsg : ok msg) :
      Step ok s (addTimer s callback msg tick currTick)
  | enter {s : State} (currTick : ℕ) (hcall : s.Calling) (hclock : s.clock ≤ currTick) :
      Step ok s (handlerEnter s currTick)
  | loop {s : State} {f : Frame} {rest : List Frame} (hframes : s.frames = f :: rest)
      (hcurr : f.curr = none) : Step ok s (handlerLoop s f rest)
  | ret {s : State} {f : Frame} {rest : List Frame} {curr : ℕ} (hframes : s.frames = f :: rest)
      (hcurr : f.curr = some curr) : Step ok s (callbackReturn s f rest curr)
  | keepSchedule {s : State} (hcall : s.Calling) : Step ok s { s with needSchedule := true }

structure State.Initial (s : State) : Prop where
  heap : s.heap.Ok
  timerHead : s.timerHead = 0
  frames : s.frames = []
  added : s.added = []
  fired : s.fired = []
  freed : s.freed = []

/-- The message fits between its field and the end of the node: the field after it is set later. -/
def Fits (msg : List UInt8) : Prop := offMsg + msg.length + 1 ≤ nodeSize

end OscKernel.Timer
