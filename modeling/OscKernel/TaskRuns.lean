import Mathlib.Data.List.ReduceOption
import OscKernel.ListLinks
import OscKernel.PriorityStacks

/-!
# Runs of the tasks

In every run of `add_task` and `execute_task`, also one whose callbacks are interrupted and return in any
order, the tasks that wait are stacks, one for each priority. So the task that is executed is the last one
added of those with the least number.
-/

namespace OscKernel.Tasks

open ByteOrder SortedLinks PriorityStacks Runs
open NodeLists (Placed Fresh)

structure Job where
  callback : ℕ
  priority : ℤ
  deriving DecidableEq

def job (m : ByteMem) (a : ℕ) : Job := ⟨callback m a, priority m a⟩

/-- A step of the tasks in a run. A call of `add_task` that gets no memory adds nothing. A callback may be
interrupted by one that switches to another thread, so that any of the callbacks that run may return. -/
inductive Does : State → Option (Event Job) → State → Prop
  | add {s : State} (c : UInt64) (p : Int32) (halloc : (s.heap.alloc nodeSize).2 ≠ 0) :
      Does s (some (.push ⟨c.toNat, p.toInt⟩)) (addTask s c p)
  | full {s : State} (c : UInt64) (p : Int32) (halloc : (s.heap.alloc nodeSize).2 = 0) :
      Does s none (addTask s c p)
  | execute {s : State} (hhead : s.taskHead ≠ 0) :
      Does s (some (.pop ⟨callback (executeTask s).mem s.taskHead, priority s.mem s.taskHead⟩))
        (executeTask s)
  | ret {s : State} {curr : ℕ} (hcurr : curr ∈ s.running) :
      Does s none (executeReturn s curr (s.running.erase curr))

/-- What `irq_entry` and `uart_irq_handler` do with the handler of an interrupt, up to its call. -/
def interrupt (s : State) (handler : UInt64) : State := executeTask (addTask s handler 0)

def history (events : List (Option (Event Job))) : List (Event Job) := events.reduceOption

def State.Lists (s : State) (pending : List Job) : Prop :=
  ∃ l, Placed layout s.mem s.heap s.taskHead l s.running ∧ l.map (job s.mem) = pending

variable {s s' s₀ : State} {l : List ℕ} {m m' : ByteMem} {a b node x : ℕ} {c : UInt64} {p : Int32}
  {pending : List Job}

theorem job_congr (h : layout.SameData m m' a) : job m' a = job m a := by
  have hkey := h.key
  simp only [layout] at hkey
  rw [job, job, hkey, callback, callback]
  refine congrArg₂ Job.mk (word_congr fun x hlo hhi => ?_) rfl
  have hsize : layout.size = 32 := rfl
  rw [offCallback] at hlo hhi
  exact h x hlo (by omega)

theorem job_fillNode (m : ByteMem) (node : ℕ) (c : UInt64) (p : Int32) :
    job (fillNode m node c p) node = ⟨c.toNat, p.toInt⟩ := by
  refine congrArg₂ Job.mk ?_ (priority_fillNode m node c p)
  have hset : word (setCallback m node c.toNat) (node + offCallback) = c.toNat := by
    rw [setCallback]
    exact word_setWord c.toNat_lt
  rw [callback, fillNode, setPriority]
  refine Eq.trans (word_congr fun x hlo hhi => ByteMem.write_outside _ _ _ (Or.inl ?_)) hset
  rw [offCallback] at hhi
  rw [offPriority]
  omega

/-- A new node keeps what the other nodes hold. -/
theorem fresh_job {h' : Vfs.Heap} (hf : Fresh layout s.mem s.heap l s.running h' node m) (ha : a ∈ l) :
    job m a = job s.mem a :=
  job_congr fun x hlo hhi => hf.same ha x (by omega) hhi

theorem map_orderedInsert_job : (l.orderedInsert (layout.Le m) node).map (job m) =
    (l.map (job m)).orderedInsert (Before Job.priority) (job m node) := by
  refine List.map_orderedInsert _ _ _ _ _ ?_ ?_
  · exact fun _ _ => Iff.rfl
  · exact fun _ _ => Iff.rfl

theorem State.Lists.add (h : s.Lists pending) (c : UInt64) (p : Int32)
    (halloc : (s.heap.alloc nodeSize).2 ≠ 0) :
    (addTask s c p).Lists (pending.orderedInsert (Before Job.priority) ⟨c.toNat, p.toInt⟩) := by
  obtain ⟨l, hp, rfl⟩ := h
  generalize hnode : (s.heap.alloc nodeSize).2 = node at halloc
  set m := fillNode s.mem node c p with hm
  have hfresh : Fresh layout s.mem s.heap l s.running (s.heap.alloc nodeSize).1 node m :=
    hp.fresh (by decide) (Prod.ext rfl hnode) halloc fun x hx => fillNode_outside hx
  have hins := hfresh.inserted hp
  refine ⟨l.orderedInsert (layout.Le m) node, ?_, ?_⟩
  · rw [addTask, hnode, if_neg halloc]
    exact hp.add hfresh
  · have hjobs : l.map (job m) = l.map (job s.mem) := List.map_congr_left fun a ha => fresh_job hfresh ha
    rw [← job_fillNode s.mem node c p, ← hm, ← hjobs, ← map_orderedInsert_job, addTask, hnode,
      if_neg halloc]
    refine List.map_congr_left fun a ha => job_congr (hins.same a ?_)
    exact (List.perm_orderedInsert (layout.Le m) node l).mem_iff.1 ha

theorem State.Lists.full (h : s.Lists pending) (c : UInt64) (p : Int32)
    (halloc : (s.heap.alloc nodeSize).2 = 0) : (addTask s c p).Lists pending := by
  obtain ⟨l, hp, rfl⟩ := h
  rw [addTask, if_pos halloc]
  exact ⟨l, hp.alloc_failed halloc, rfl⟩

/-- Taking the first task off changes nothing in the tasks but links. -/
theorem unlink_job (h : SortedList layout s.mem s.taskHead l) (hhead : s.taskHead ≠ 0) (ha : a ∈ l) :
    job (unlink s.mem s.taskHead) a = job s.mem a := by
  obtain ⟨t, rfl⟩ := h.exists_cons hhead
  rw [unlink]
  split_ifs with hnext
  · obtain ⟨t', rfl⟩ := h.tail.exists_cons hnext
    exact job_congr (sameData_setPrev (h.fit ha (List.mem_cons_of_mem _ List.mem_cons_self)))
  · rfl

theorem State.Lists.execute (h : s.Lists pending) (hhead : s.taskHead ≠ 0) :
    ∃ rest, pending = ⟨callback (executeTask s).mem s.taskHead, priority s.mem s.taskHead⟩ :: rest ∧
      (executeTask s).Lists rest := by
  obtain ⟨l, hp, rfl⟩ := h
  obtain ⟨t, rfl⟩ := hp.list.exists_cons hhead
  have hmem : (executeTask s).mem = unlink s.mem s.taskHead := by rw [executeTask]
  have hjob : ∀ a ∈ s.taskHead :: t, job (executeTask s).mem a = job s.mem a := fun a ha => by
    rw [hmem]
    exact unlink_job hp.list hhead ha
  have hcallback : callback (executeTask s).mem s.taskHead = callback s.mem s.taskHead :=
    (Job.mk.inj (hjob s.taskHead List.mem_cons_self)).1
  have hrest : t.map (job (executeTask s).mem) = t.map (job s.mem) :=
    List.map_congr_left fun a ha => hjob a (List.mem_cons_of_mem _ ha)
  refine ⟨t.map (job s.mem), ?_, ?_⟩
  · rw [hcallback, List.map_cons, job]
  · rw [State.Lists]
    exact ⟨t, (executeTask_placed hp hhead).1, hrest⟩

theorem State.Lists.ret {curr : ℕ} (h : s.Lists pending) (hcurr : curr ∈ s.running) :
    (executeReturn s curr (s.running.erase curr)).Lists pending := by
  obtain ⟨l, hp, rfl⟩ := h
  have hperm := (List.perm_cons_erase hcurr).append_left l
  have hplaced : Placed layout s.mem s.heap s.taskHead l (curr :: s.running.erase curr) :=
    ⟨hp.list, hp.heap, fun a ha => hp.live a (hperm.mem_iff.2 ha), hperm.nodup_iff.1 hp.nodup⟩
  exact ⟨l, hplaced.free, rfl⟩

/-- A step does to the waiting jobs what its label says, and nothing without a label. -/
theorem Does.lists {e : Option (Event Job)} (hstep : Does s e s') (h : s.Lists pending) :
    ∃ pending', s'.Lists pending' ∧
      (e = none → pending' = pending) ∧ ∀ e' ∈ e, PriorityStacks.Step Job.priority pending e' pending' := by
  cases hstep with
  | add c p halloc =>
      refine ⟨_, h.add c p halloc, fun h0 => absurd h0 (by simp), ?_⟩
      rintro e' ⟨⟩
      exact .push _ _
  | full c p halloc => exact ⟨pending, h.full c p halloc, fun _ => rfl, fun _ h0 => absurd h0 (by simp)⟩
  | execute hhead =>
      obtain ⟨rest, rfl, hrest⟩ := h.execute hhead
      refine ⟨rest, hrest, fun h0 => absurd h0 (by simp), ?_⟩
      rintro e' ⟨⟩
      exact .pop _ _
  | ret hcurr => exact ⟨pending, h.ret hcurr, fun _ => rfl, fun _ h0 => absurd h0 (by simp)⟩

theorem lists_of_run {events : List (Option (Event Job))} (h0 : s₀.Initial)
    (hrun : Trace Does s₀ events s) :
    ∃ pending, s.Lists pending ∧ Trace (PriorityStacks.Step Job.priority) [] (history events) pending := by
  induction hrun with
  | nil => exact ⟨[], ⟨[], h0.placed, rfl⟩, Trace.nil⟩
  | @snoc events e s s' _ hstep ih =>
      obtain ⟨pending, hlists, htrace⟩ := ih
      obtain ⟨pending', hlists', hnone, hsome⟩ := hstep.lists hlists
      refine ⟨pending', hlists', ?_⟩
      rw [history, List.reduceOption_append]
      cases e with
      | none =>
          rw [hnone rfl, List.reduceOption_cons_of_none, List.reduceOption_nil, List.append_nil]
          exact htrace
      | some e' => exact htrace.snoc (hsome e' rfl)

/-- In every run, the jobs that wait are in the order of their priorities, those of one priority as a stack
in which only they have a part; no job is lost or executed twice; and `execute_task` calls the callback
that was added last of those that wait with the least priority number. -/
theorem tasks_run_in_order {events : List (Option (Event Job))} (h0 : s₀.Initial)
    (hrun : Trace Does s₀ events s) :
    ∃ pending, s.Lists pending ∧ Waiting Job.priority (history events) pending := by
  obtain ⟨pending, hlists, htrace⟩ := lists_of_run h0 hrun
  exact ⟨pending, hlists, waiting_of_trace htrace⟩

theorem sampleState_initial : sampleState.Initial := ⟨Timer.sampleState_initial.heap, rfl, rfl⟩

def sampleTasks : State := addTask (addTask (addTask sampleState 7 2) 8 2) 9 (-1)

/-- Of three tasks, the one with the least number is executed. -/
theorem sampleTasks_run : Trace Does sampleState
    [some (.push ⟨7, 2⟩), some (.push ⟨8, 2⟩), some (.push ⟨9, -1⟩), some (.pop ⟨9, -1⟩)]
    (executeTask sampleTasks) := by
  have h₁ : Trace Does sampleState [some (.push ⟨7, 2⟩)] (addTask sampleState 7 2) :=
    Trace.nil.snoc (Does.add 7 2 (by decide))
  have h₂ := h₁.snoc (Does.add 8 2 (by decide))
  have h₃ := h₂.snoc (Does.add 9 (-1) (by decide))
  have hjob : job (executeTask sampleTasks).mem sampleTasks.taskHead = ⟨9, -1⟩ := by decide
  have h₄ := h₃.snoc (Does.execute (by decide))
  exact hjob ▸ h₄

theorem tasks_run_in_order_sample : ∃ pending, (executeTask sampleTasks).Lists pending ∧
    Waiting Job.priority [.push ⟨7, 2⟩, .push ⟨8, 2⟩, .push ⟨9, -1⟩, .pop ⟨9, -1⟩] pending :=
  tasks_run_in_order sampleState_initial sampleTasks_run

theorem State.Lists.taskHead_ne {j : Job} (h : s.Lists (j :: pending)) : s.taskHead ≠ 0 := by
  obtain ⟨l, hp, hl⟩ := h
  intro h0
  rw [hp.list.eq_nil_iff.2 h0] at hl
  exact absurd hl (by simp)

theorem addTask_running (s : State) (c : UInt64) (p : Int32) : (addTask s c p).running = s.running := by
  rw [addTask]
  split_ifs <;> rfl

/-- A job goes to the front of those whose numbers are no less. -/
theorem orderedInsert_front {j : Job} (h : ∀ i ∈ pending, j.priority ≤ i.priority) :
    pending.orderedInsert (Before Job.priority) j = j :: pending := by
  cases pending with
  | nil => rfl
  | cons i pending => exact List.orderedInsert_cons_of_le _ _ (h i List.mem_cons_self)

/-- As long as no task was ever added with a negative number, an interrupt that gets a node runs its own
handler, whatever tasks wait and whatever callbacks it interrupts, and the tasks that wait stay as they
were. -/
theorem interrupt_runs_its_handler {events : List (Option (Event Job))} {handler : UInt64}
    (h0 : s₀.Initial) (hrun : Trace Does s₀ events s)
    (hprio : ∀ j, some (.push j) ∈ events → 0 ≤ j.priority) (halloc : (s.heap.alloc nodeSize).2 ≠ 0) :
    ∃ node pending, s.Lists pending ∧ (interrupt s handler).Lists pending ∧
      (interrupt s handler).running = node :: s.running ∧
      callback (interrupt s handler).mem node = handler.toNat := by
  obtain ⟨pending, hlists, hwait⟩ := tasks_run_in_order h0 hrun
  have hle : ∀ i ∈ pending, 0 ≤ i.priority := fun i hi => by
    have hmem := hwait.conserved.mem_iff.2 (List.mem_append_right _ hi)
    obtain ⟨e, he, hpushed⟩ := List.mem_filterMap.1 hmem
    cases e with
    | push j =>
        obtain rfl : j = i := Option.some.inj hpushed
        exact hprio j (List.reduceOption_mem_iff.1 he)
    | pop j => exact absurd hpushed (by simp [Event.pushed])
  have hadd := hlists.add handler 0 halloc
  rw [orderedInsert_front hle] at hadd
  have hhead := hadd.taskHead_ne
  obtain ⟨rest, heq, hrest⟩ := hadd.execute hhead
  obtain ⟨hjob, rfl⟩ := List.cons.inj heq
  refine ⟨(addTask s handler 0).taskHead, pending, hlists, hrest, ?_, (Job.mk.inj hjob).1.symm⟩
  rw [interrupt, executeTask, addTask_running]

/-- An interrupt while a task waits. -/
theorem interrupt_runs_its_handler_sample : ∃ node pending, (addTask sampleState 7 2).Lists pending ∧
    (interrupt (addTask sampleState 7 2) 9).Lists pending ∧
    (interrupt (addTask sampleState 7 2) 9).running = node :: (addTask sampleState 7 2).running ∧
    callback (interrupt (addTask sampleState 7 2) 9).mem node = 9 :=
  interrupt_runs_its_handler sampleState_initial
    (Trace.nil.snoc (Does.add 7 2 (by decide))) (by simp) (by decide)

end OscKernel.Tasks
