import OscKernel.Tasks
import OscKernel.TimerRuns

/-!
# The links of the timer list and the task list

A step of the timers or of the tasks keeps the list well linked exactly if it links no node behind another
one. So a run keeps it well linked all along exactly if every node it adds goes to the head.
-/

namespace OscKernel

open SortedLinks Runs
open NodeLists (Placed Fresh)

namespace Timer

variable {s s' : State} {l : List ℕ} {ok : State → ℕ → Prop}

/-- A new node with this expiration becomes the head of the list, or there is no memory for it. -/
def State.AtHead (s : State) (e : ℕ) : Prop :=
  (s.heap.alloc nodeSize).2 = 0 ∨ s.timerHead = 0 ∨ e ≤ expiration s.mem s.timerHead

/-- A step with any values of the counter and any expiration; `ok` is a condition on the calls of
`add_timer`. -/
inductive ListStep (ok : State → ℕ → Prop) : State → State → Prop
  | add {s : State} (callback : UInt64) (msg : List UInt8) (tick currTick : ℕ) (hcall : s.Calling)
      (hmsg : Fits msg) (hok : ok s ((currTick + tick) % 2 ^ 64)) :
      ListStep ok s (addTimer s callback msg tick currTick)
  | enter {s : State} (currTick : ℕ) (hcall : s.Calling) : ListStep ok s (handlerEnter s currTick)
  | loop {s : State} {f : Frame} {rest : List Frame} (hframes : s.frames = f :: rest)
      (hcurr : f.curr = none) : ListStep ok s (handlerLoop s f rest)
  | ret {s : State} {f : Frame} {rest : List Frame} {curr : ℕ} (hframes : s.frames = f :: rest)
      (hcurr : f.curr = some curr) : ListStep ok s (callbackReturn s f rest curr)
  | keepSchedule {s : State} (hcall : s.Calling) : ListStep ok s { s with needSchedule := true }

def State.Placed (s : State) (l : List ℕ) : Prop :=
  NodeLists.Placed layout s.mem s.heap s.timerHead l s.running

def State.WellLinked (s : State) : Prop := SortedLinks.WellLinked layout s.mem s.timerHead

theorem State.Initial.placed (h : s.Initial) : s.Placed [] := by
  have hrun : s.running = [] := by rw [State.running, h.frames]; rfl
  rw [State.Placed, h.timerHead, hrun]
  exact NodeLists.Placed.empty h.heap

/-- A call of `add_timer` that gets a node links it. -/
theorem addTimer_cases (hp : s.Placed l) (c : UInt64) {msg : List UInt8} (hmsg : Fits msg)
    (tick currTick : ℕ) :
    (s.heap.alloc nodeSize).2 = 0 ∧
        addTimer s c msg tick currTick = { s with heap := (s.heap.alloc nodeSize).1 } ∨
      ∃ h' node m₁, Fresh layout s.mem s.heap l s.running h' node m₁ ∧ (s.heap.alloc nodeSize).2 ≠ 0 ∧
        expiration m₁ node = (currTick + tick) % 2 ^ 64 ∧
        (addTimer s c msg tick currTick).mem =
          (SortedLinks.link layout m₁ s.timerHead node s.heap.live.length).1 ∧
        (addTimer s c msg tick currTick).heap = h' ∧
        (addTimer s c msg tick currTick).timerHead =
          (SortedLinks.link layout m₁ s.timerHead node s.heap.live.length).2.1 ∧
        (addTimer s c msg tick currTick).frames = s.frames := by
  by_cases hne : (s.heap.alloc nodeSize).2 = 0
  · refine Or.inl ⟨hne, ?_⟩
    rw [addTimer]
    exact if_pos hne
  · set node := (s.heap.alloc nodeSize).2
    set m₁ := fillNode s.mem node c msg ((currTick + tick) % 2 ^ 64) with hm
    have hfresh : Fresh layout s.mem s.heap l s.running (s.heap.alloc nodeSize).1 node m₁ :=
      NodeLists.Placed.fresh hp (by decide) rfl hne fun x hx => fillNode_outside hmsg hx
    have hfields := fillNode_fields s.mem node c msg (Nat.mod_lt (currTick + tick) (by decide : 0 < 2 ^ 64))
    have hadd : (addTimer s c msg tick currTick).mem = (link m₁ s.timerHead node s.heap.live.length).1 ∧
        (addTimer s c msg tick currTick).heap = (s.heap.alloc nodeSize).1 ∧
        (addTimer s c msg tick currTick).timerHead =
          (link m₁ s.timerHead node s.heap.live.length).2.1 := by
      rw [addTimer, if_neg hne]
      exact ⟨rfl, rfl, rfl⟩
    rw [link_eq] at hadd
    exact Or.inr ⟨_, node, m₁, hfresh, hne, hfields.2, hadd.1, hadd.2.1, hadd.2.2,
      addTimer_frames s c msg tick currTick⟩

/-- A timer that is added goes on the list, and its links are right exactly at the head. -/
theorem addTimer_placed (hp : s.Placed l) (c : UInt64) {msg : List UInt8} (hmsg : Fits msg)
    (tick currTick : ℕ) : (∃ l', (addTimer s c msg tick currTick).Placed l') ∧
      (s.WellLinked → ((addTimer s c msg tick currTick).WellLinked ↔
        s.AtHead ((currTick + tick) % 2 ^ 64))) := by
  rcases addTimer_cases hp c hmsg tick currTick with
    ⟨hfail, heq⟩ | ⟨h', node, m₁, hfresh, hne, hexp, hmem, hheap, hhead, hframes⟩
  · rw [heq]
    exact ⟨⟨l, NodeLists.Placed.alloc_failed hp hfail⟩, fun hw => ⟨fun _ => Or.inl hfail, fun _ => hw⟩⟩
  · have hrunning : (addTimer s c msg tick currTick).running = s.running := by
      rw [State.running, State.running, hframes]
    constructor
    · refine ⟨l.orderedInsert (layout.Le m₁) node, ?_⟩
      rw [State.Placed, hmem, hheap, hhead, hrunning]
      exact NodeLists.Placed.add hp hfresh
    · intro hw
      rw [State.WellLinked, hmem, hhead, NodeLists.Placed.add_wellLinked_iff hp hfresh hw, State.AtHead,
        or_iff_right hne, ← hexp]
      rfl

theorem handlerLoop_expired {f : Frame} (rest : List Frame) (hexp : Expired s f) :
    (handlerLoop s f rest).mem = unlink s.mem s.timerHead ∧ (handlerLoop s f rest).heap = s.heap ∧
      (handlerLoop s f rest).timerHead = SortedLinks.next s.mem s.timerHead ∧
      (handlerLoop s f rest).running = s.timerHead :: rest.filterMap Frame.curr := by
  rw [handlerLoop, if_pos hexp, unlink]
  simp only [next_eq, setPrev_eq]
  exact ⟨if_congr Iff.rfl rfl rfl, trivial, trivial, rfl⟩

theorem handlerLoop_placed (hp : s.Placed l) {f : Frame} {rest : List Frame}
    (hframes : s.frames = f :: rest) (hcurr : f.curr = none) :
    (∃ l', (handlerLoop s f rest).Placed l') ∧ (s.WellLinked → (handlerLoop s f rest).WellLinked) := by
  have hrunning := running_of_none hframes hcurr
  rw [State.Placed, hrunning] at hp
  by_cases hexp : Expired s f
  · obtain ⟨hmem, hheap, hhead, hrun⟩ := handlerLoop_expired rest hexp
    constructor
    · refine ⟨l.tail, ?_⟩
      rw [State.Placed, hmem, hheap, hhead, hrun]
      exact NodeLists.Placed.unlink hp hexp.1
    · intro hw
      rw [State.WellLinked, hmem, hhead]
      exact NodeLists.Placed.unlink_wellLinked hp hexp.1 hw
  · rw [handlerLoop, if_neg hexp]
    exact ⟨⟨l, hp⟩, id⟩

theorem callbackReturn_placed (hp : s.Placed l) {f : Frame} {rest : List Frame} {a : ℕ}
    (hframes : s.frames = f :: rest) (hcurr : f.curr = some a) : (callbackReturn s f rest a).Placed l := by
  rw [State.Placed, running_of_some hframes hcurr] at hp
  exact NodeLists.Placed.free hp

theorem placed_stable : Stable (ListStep ok) fun s => ∃ l, s.Placed l := by
  rintro s s' ⟨l, hp⟩ hstep
  cases hstep with
  | add c msg tick currTick _ hmsg _ => exact (addTimer_placed hp c hmsg tick currTick).1
  | enter currTick _ => exact ⟨l, hp⟩
  | loop hframes hcurr => exact (handlerLoop_placed hp hframes hcurr).1
  | ret hframes hcurr => exact ⟨l, callbackReturn_placed hp hframes hcurr⟩
  | keepSchedule _ => exact ⟨l, hp⟩

theorem step_wellLinked_iff (hI : ∃ l, s.Placed l) (hw : s.WellLinked)
    (hstep : ListStep (fun _ _ => True) s s') : s'.WellLinked ↔ ListStep State.AtHead s s' := by
  obtain ⟨l, hp⟩ := hI
  constructor
  · intro hw'
    cases hstep with
    | add c msg tick currTick hcall hmsg _ =>
        exact ListStep.add c msg tick currTick hcall hmsg
          (((addTimer_placed hp c hmsg tick currTick).2 hw).1 hw')
    | enter currTick hcall => exact ListStep.enter currTick hcall
    | loop hframes hcurr => exact ListStep.loop hframes hcurr
    | ret hframes hcurr => exact ListStep.ret hframes hcurr
    | keepSchedule hcall => exact ListStep.keepSchedule hcall
  · intro hgood
    cases hgood with
    | add c msg tick currTick _ hmsg hat => exact ((addTimer_placed hp c hmsg tick currTick).2 hw).2 hat
    | enter currTick _ => exact hw
    | loop hframes hcurr => exact (handlerLoop_placed hp hframes hcurr).2 hw
    | ret hframes hcurr => exact hw
    | keepSchedule _ => exact hw

end Timer

namespace Tasks

variable {s s' : State} {l : List ℕ} {ok : State → ℤ → Prop}

/-- A new node with this priority becomes the head of the list, or there is no memory for it. -/
def State.AtHead (s : State) (p : ℤ) : Prop :=
  (s.heap.alloc nodeSize).2 = 0 ∨ s.taskHead = 0 ∨ p ≤ priority s.mem s.taskHead

def State.WellLinked (s : State) : Prop := SortedLinks.WellLinked layout s.mem s.taskHead

/-- A task that is added goes on the list, and its links are right exactly at the head. -/
theorem addTask_placed (hp : Placed layout s.mem s.heap s.taskHead l s.running) (c : UInt64) (p : Int32) :
    (∃ l', Placed layout (addTask s c p).mem (addTask s c p).heap (addTask s c p).taskHead l'
        (addTask s c p).running) ∧
      (s.WellLinked → ((addTask s c p).WellLinked ↔ s.AtHead p.toInt)) := by
  rcases addTask_cases hp c p with ⟨hfail, heq⟩ | ⟨h', node, m₁, hfresh, hne, hkey, heq⟩
  · rw [heq]
    exact ⟨⟨l, hp.alloc_failed hfail⟩, fun hw => ⟨fun _ => Or.inl hfail, fun _ => hw⟩⟩
  · rw [heq]
    refine ⟨⟨l.orderedInsert (layout.Le m₁) node, hp.add hfresh⟩, fun hw => ?_⟩
    rw [State.WellLinked, hp.add_wellLinked_iff hfresh hw, State.AtHead, or_iff_right hne, ← hkey]
    rfl

theorem executeTask_placed (hp : Placed layout s.mem s.heap s.taskHead l s.running) (hhead : s.taskHead ≠ 0) :
    Placed layout (executeTask s).mem (executeTask s).heap (executeTask s).taskHead l.tail
        (executeTask s).running ∧ (s.WellLinked → (executeTask s).WellLinked) := by
  have hplaced := hp.unlink hhead
  have hlinked := hp.unlink_wellLinked hhead
  simp only [State.WellLinked, executeTask]
  exact ⟨hplaced, hlinked⟩

theorem placed_stable : Stable (Step ok) fun s => ∃ l, Placed layout s.mem s.heap s.taskHead l s.running := by
  rintro s s' ⟨l, hp⟩ hstep
  cases hstep with
  | add c p _ => exact (addTask_placed hp c p).1
  | execute hhead => exact ⟨l.tail, (executeTask_placed hp hhead).1⟩
  | ret hrunning =>
      rw [hrunning] at hp
      exact ⟨l, hp.free⟩

theorem step_wellLinked_iff (hI : ∃ l, Placed layout s.mem s.heap s.taskHead l s.running)
    (hw : s.WellLinked) (hstep : Step (fun _ _ => True) s s') : s'.WellLinked ↔ Step State.AtHead s s' := by
  obtain ⟨l, hp⟩ := hI
  constructor
  · intro hw'
    cases hstep with
    | add c p _ => exact Step.add c p (((addTask_placed hp c p).2 hw).1 hw')
    | execute hhead => exact Step.execute hhead
    | ret hrunning => exact Step.ret hrunning
  · intro hgood
    cases hgood with
    | add c p hat => exact ((addTask_placed hp c p).2 hw).2 hat
    | execute hhead => exact (executeTask_placed hp hhead).2 hw
    | ret hrunning => exact hw

end Tasks

/-- The timer list and the task list are well linked all along a run exactly if every node goes to the head
when it is added. -/
theorem lists_well_linked_iff (s : Timer.State) (run : List Timer.State) (u : Tasks.State)
    (run' : List Tasks.State) (hs : s.Initial)
    (hrun : List.IsChain (Timer.ListStep fun _ _ => True) (s :: run)) (hu : u.Initial)
    (hrun' : List.IsChain (Tasks.Step fun _ _ => True) (u :: run')) :
    ((∀ s' ∈ run, s'.WellLinked) ↔ List.IsChain (Timer.ListStep Timer.State.AtHead) (s :: run)) ∧
      ((∀ u' ∈ run', u'.WellLinked) ↔ List.IsChain (Tasks.Step Tasks.State.AtHead) (u :: run')) := by
  constructor
  · have hw : s.WellLinked := by
      rw [Timer.State.WellLinked, hs.timerHead]
      exact wellLinked_empty _ _
    exact Timer.placed_stable.isChain_iff (fun _ _ => Timer.step_wellLinked_iff) ⟨[], hs.placed⟩ hw hrun
  · have hw : u.WellLinked := by
      rw [Tasks.State.WellLinked, hu.taskHead]
      exact wellLinked_empty _ _
    exact Tasks.placed_stable.isChain_iff (fun _ _ => Tasks.step_wellLinked_iff) ⟨[], hu.placed⟩ hw hrun'

namespace Timer

def oneTimer : State := addTimer sampleState 7 [] 100 0

def inFront : State := addTimer oneTimer 7 [] 50 0

def behind : State := addTimer oneTimer 7 [] 200 0

theorem oneTimer_step {ok : State → ℕ → Prop} (hok : ok sampleState 100) : ListStep ok sampleState oneTimer :=
  ListStep.add 7 [] 100 0 (calling_of_frames rfl) (by rw [Fits]; decide) hok

theorem oneTimer_calling : oneTimer.Calling := calling_of_frames (addTimer_frames _ _ _ _ _)

theorem inFront_step {ok : State → ℕ → Prop} (hok : ok oneTimer 50) : ListStep ok oneTimer inFront :=
  ListStep.add 7 [] 50 0 oneTimer_calling (by rw [Fits]; decide) hok

theorem behind_links : behind.timerHead = 4096 ∧ next behind.mem 4096 = 3952 ∧
    SortedLinks.prev behind.mem 3952 = 3952 := by
  decide

end Timer

namespace Tasks

def sampleState : State := ⟨fun _ => 0, Timer.sampleState.heap, 0, []⟩

def oneTask : State := addTask sampleState 7 (-3)

def twoTasks : State := addTask oneTask 7 (-5)

theorem twoTasks_run {ok : State → ℤ → Prop} (h₁ : ok sampleState (-3)) (h₂ : ok oneTask (-5)) :
    List.IsChain (Step ok) [sampleState, oneTask, twoTasks, executeTask twoTasks] := by
  have hexecute : Step ok twoTasks (executeTask twoTasks) := Step.execute (by decide)
  refine List.isChain_cons_cons.2 ⟨Step.add 7 (-3) h₁, ?_⟩
  exact List.isChain_cons_cons.2 ⟨Step.add 7 (-5) h₂, List.isChain_pair.2 hexecute⟩

end Tasks

/-- Two timers and two tasks, each added at the head; the first of the tasks is then executed. -/
theorem lists_well_linked_two :
    (Timer.inFront.WellLinked ∧ next Timer.inFront.mem Timer.inFront.timerHead = Timer.oneTimer.timerHead) ∧
      (Tasks.twoTasks.WellLinked ∧ next Tasks.twoTasks.mem Tasks.twoTasks.taskHead = Tasks.oneTask.taskHead) ∧
      (Tasks.executeTask Tasks.twoTasks).WellLinked := by
  have hinitial : Tasks.sampleState.Initial := ⟨Timer.sampleState_initial.heap, rfl, rfl⟩
  have htimers : List.IsChain (Timer.ListStep fun _ _ => True)
      [Timer.sampleState, Timer.oneTimer, Timer.inFront] :=
    List.isChain_cons_cons.2 ⟨Timer.oneTimer_step trivial, List.isChain_pair.2 (Timer.inFront_step trivial)⟩
  have hiff := lists_well_linked_iff Timer.sampleState [Timer.oneTimer, Timer.inFront] Tasks.sampleState
    [Tasks.oneTask, Tasks.twoTasks, Tasks.executeTask Tasks.twoTasks] Timer.sampleState_initial htimers
    hinitial (Tasks.twoTasks_run trivial trivial)
  have htimer : Timer.oneTimer.AtHead 50 := Or.inr (Or.inr (by decide))
  have htask : Tasks.oneTask.AtHead (-5) := Or.inr (Or.inr (by decide))
  have hfirst : List.IsChain (Timer.ListStep Timer.State.AtHead)
      [Timer.sampleState, Timer.oneTimer, Timer.inFront] := by
    refine List.isChain_cons_cons.2 ⟨Timer.oneTimer_step (Or.inr (Or.inl rfl)), ?_⟩
    exact List.isChain_pair.2 (Timer.inFront_step htimer)
  have hsecond := hiff.2.2 (Tasks.twoTasks_run (Or.inr (Or.inl rfl)) htask)
  refine ⟨⟨hiff.1.2 hfirst _ (by simp), by decide⟩, ⟨hsecond _ (by simp), by decide⟩, ?_⟩
  exact hsecond _ (by simp)

/-- The second timer points back to itself. -/
theorem timer_list_links_broken : Timer.sampleState.Initial ∧
    List.IsChain (Timer.ListStep fun _ _ => True) [Timer.sampleState, Timer.oneTimer, Timer.behind] ∧
    ¬ Timer.behind.WellLinked := by
  refine ⟨Timer.sampleState_initial, ?_, ?_⟩
  · refine List.isChain_cons_cons.2 ⟨Timer.oneTimer_step trivial, List.isChain_pair.2 ?_⟩
    exact Timer.ListStep.add 7 [] 200 0 Timer.oneTimer_calling (by rw [Timer.Fits]; decide) trivial
  · rintro ⟨l, hc, -⟩
    obtain ⟨hhead, hnext, hprev⟩ := Timer.behind_links
    rw [hhead, ptr_of_ne (by decide)] at hc
    have hmem := hc.chain.next_mem hc.chain.head_mem (congrArg ptr hnext)
    exact hc.prev_ne_self hmem (congrArg ptr hprev)

end OscKernel
