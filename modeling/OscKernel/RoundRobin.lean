import OscKernel.Fifo
import OscKernel.SchedulerThreads

/-!
# Round robin

`schedule` selects the threads in the order of the ready queue, where the thread that is left goes to the
end. A thread on the queue is passed over at most once by each other thread, in runs that create, fork,
enter, schedule and end threads in any order. A thread that was entered directly is still on the queue, but
one that `schedule` has selected never is while it runs.
-/

namespace OscKernel.Sched

open Linked Relation Runs Fifo

variable {s s' s₀ s₁ s₂ s₃ : State} {rq zq rest : List ℕ} {t c n k u : ℕ} {a : Act} {e e' : Event ℕ}
  {es : List (Event ℕ)}

def State.killed (s : State) : Act → Option ℕ
  | .kill pid => (s.getThreadTaskById pid).join
  | _ => none

/-- The thread to which `schedule` switches. Direct jumps are made without it. -/
def State.selected (s : State) : Act → Option ℕ
  | .jump _ _ _ => none
  | a => do
      let s' ← s.step a
      if s'.current = s.current then none else s'.current

def State.event (s : State) (a : Act) : Event ℕ := ⟨s.killed a, s.selected a⟩

theorem selected_same (heq : s.step a = some s') (hcur : s'.current = s.current) : s.selected a = none := by
  cases a <;> simp only [State.selected, heq, Option.bind_eq_bind, Option.bind_some, if_pos hcur]

theorem selected_switch (ha : ∀ t k u, a ≠ .jump t k u) (heq : s.step a = some s')
    (hc : s.current = some c) (hcur : s'.current = some n) (hn : n ≠ c) : s.selected a = some n := by
  have hne : ¬ some n = s.current := by
    rw [hc]
    exact fun h => hn (Option.some.inj h)
  cases a with
  | jump t k u => exact absurd rfl (ha t k u)
  | _ => simp only [State.selected, heq, Option.bind_eq_bind, Option.bind_some, hcur, if_neg hne]

/-- The ready queue is the line, and the current thread returns to it if it is running. -/
def machine (s : State) (c : ℕ) (rq : List ℕ) : Machine ℕ :=
  ⟨rq, c, decide ((s.tasks c).state = .running), {t | t ∈ s.cells}⟩

theorem Inv.machine_ok (h : Inv s rq zq) (hc : s.current = some c) : (machine s c rq).Ok := by
  obtain ⟨c', hc', hcell, -⟩ := h.current
  obtain rfl : c = c' := Option.some.inj (hc.symm.trans hc')
  refine ⟨h.queues.nodup_ready, fun t => h.ready_mem, hcell, fun hrun => h.not_ready ?_⟩
  have hstate : (s.tasks c).state = .running := of_decide_eq_true hrun
  change (s.tasks c).state ≠ .ready
  rw [hstate]
  exact TaskState.noConfusion

theorem requeue_eq (x : TaskState) (c : ℕ) (l : List ℕ) :
    requeue x c l = l ++ back (decide (x = .running)) c := by
  rw [requeue, back]
  by_cases hx : x = .running
  · rw [if_pos hx, if_pos (decide_eq_true hx)]
  · rw [if_neg hx, if_neg (by simpa using hx), List.append_nil]

/-- The machine behind a thread that has been selected. -/
theorem machine_selected {x : TaskState} (hcells : s'.cells = s.cells)
    (htasks : s'.tasks = ((s.setState c x).setState n .running).tasks) (l : List ℕ) :
    machine s' n l = ⟨l, n, true, {t | t ∈ s.cells}⟩ := by
  have hstate : (s'.tasks n).state = .running := by
    rw [htasks, state_setState_self]
  rw [machine, hstate, hcells]
  rfl

/-- A call of `schedule` stays or selects the head of the line. -/
theorem Inv.schedule_move (h : Inv s rq zq) (hc : s.current = some c) :
    (s.schedule = some s ∧ ∀ n, rq.head? = some n → n = c) ∨
      ∃ s' n rest zq', s.schedule = some s' ∧ rq = n :: rest ∧ n ≠ c ∧ s'.current = some n ∧
        Inv s' (rest ++ back (decide ((s.tasks c).state = .running)) c) zq' ∧
        ∀ l, machine s' n l = ⟨l, n, true, {t | t ∈ s.cells}⟩ := by
  rcases h.schedule_cases hc with
    hstay | ⟨s', n, rest, hrq, hn, heq, hcur, hinv, htasks, -, hcells, -⟩
  · exact Or.inl hstay
  · rw [requeue_eq] at hinv
    exact Or.inr ⟨s', n, rest, _, heq, hrq, hn, hcur, hinv, machine_selected hcells htasks⟩

def Moves (s : State) (a : Act) (s' : State) (c : ℕ) (rq : List ℕ) : Prop :=
  ∃ c' rq' zq', Inv s' rq' zq' ∧ s'.current = some c' ∧
    Move (machine s c rq) (s.event a) (machine s' c' rq')

/-- The current thread ends, alone or by `_kill`: it leaves the line and the next one is selected. -/
theorem Inv.leave_moves (h : Inv s rq zq) (hc : s.current = some c)
    (hinv : Inv (s₁.setState c .exited) (rq.erase c) zq) (hsame : SameBut s s₁)
    (heq : (s₁.setState c .exited).schedule = some s') (hstep : s.step a = some s')
    (ha : ∀ t k u, a ≠ .jump t k u) (hkill : ∀ t, s.killed a = some t → t = c) : Moves s a s' c rq := by
  have hc₁ : (s₁.setState c .exited).current = some c := hsame.current.trans hc
  have hcells : (s₁.setState c .exited).cells = s.cells := hsame.cells
  have hstate := state_setState_self s₁ c .exited
  rcases hinv.schedule_move hc₁ with ⟨hstay, hhead⟩ | ⟨s₂, n, rest, zq', heq₂, hrest, hn, hcur, hinv₂, hmachine⟩
  · obtain rfl := Option.some.inj (heq.symm.trans hstay)
    have hnil : rq.erase c = [] := by
      cases hl : rq.erase c with
      | nil => rfl
      | cons n l =>
          rw [hl] at hhead
          have hmem : c ∈ rq.erase c := by
            rw [hl, hhead n rfl]
            exact List.mem_cons_self
          exact absurd hmem h.queues.nodup_ready.not_mem_erase
    rw [hnil] at hinv
    refine ⟨c, [], zq, hinv, hc₁, ?_⟩
    have hmachine : machine (s₁.setState c .exited) c [] = ⟨[], c, false, {t | t ∈ s.cells}⟩ := by
      rw [machine, hstate, hcells]
      rfl
    rw [hmachine, State.event, selected_same hstep (hc₁.trans hc.symm)]
    exact Move.leaveLast _ hkill hnil
  · obtain rfl := Option.some.inj (heq.symm.trans heq₂)
    rw [hstate] at hinv₂
    have hback : rest ++ back (decide (TaskState.exited = .running)) c = rest := List.append_nil rest
    rw [hback] at hinv₂
    refine ⟨n, rest, zq', hinv₂, hcur, ?_⟩
    rw [hmachine, hcells, State.event, selected_switch ha hstep hc hcur hn]
    exact Move.leave _ n rest hkill hrest

/-- A new thread enters the line at its end. -/
theorem Inv.enter_moves (h : Inv s rq zq) (hc : s.current = some c) (hinv : Inv s' (rq ++ [t]) zq)
    (hsame : SameBut (s.newThread t k u) s') (htc : t ∉ s.cells) (hstep : s.step a = some s')
    (hkill : s.killed a = none) : Moves s a s' c rq := by
  have hcell : c ∈ s.cells := (h.machine_ok hc).running
  have hcur : s'.current = some c := hsame.current.trans hc
  refine ⟨c, rq ++ [t], zq, hinv, hcur, ?_⟩
  have htasks : s'.tasks c = s.tasks c := by
    rw [hsame.tasks, tasks_newThread s k u (ne_of_mem_of_not_mem hcell htc)]
  have hmachine : machine s' c (rq ++ [t]) =
      { machine s c rq with line := rq ++ [t], known := insert t (machine s c rq).known } := by
    rw [machine, htasks, hsame.cells]
    simp only [machine, State.newThread, List.mem_cons]
    rfl
  rw [hmachine, State.event, hkill, selected_same hstep (hcur.trans hc.symm)]
  exact Move.enter t htc

theorem Inv.moves (h : Inv s rq zq) (hc : s.current = some c) (hstep : Step s a s') (ha : a ≠ .reap) :
    Moves s a s' c rq := by
  have heq := hstep.2
  cases h.outcome hstep fun hreap => absurd hreap ha with
  | create hact hinv hsame htc =>
      have hkill : s.killed a = none := by rcases hact with rfl | rfl <;> rfl
      exact h.enter_moves hc hinv hsame htc heq hkill
  | @jump t k u s₁ hinv hsame htc =>
      refine ⟨t, rq ++ [t], zq, hinv, rfl, ?_⟩
      have hmachine : machine { s₁ with current := some t } t (rq ++ [t]) =
          ⟨rq ++ [t], t, false, insert t (machine s c rq).known⟩ := by
        simp only [machine, hsame.tasks, hsame.cells, State.newThread, Function.update_self, List.mem_cons]
        rfl
      rw [hmachine]
      exact Move.jump t htc
  | schedule hrun =>
      rcases h.schedule_move hc with ⟨hstay, -⟩ | ⟨s₁, n, rest, zq', heq₁, rfl, hn, hcur, hinv, hmachine⟩
      · obtain rfl : s' = s := Option.some.inj (hrun.symm.trans hstay)
        refine ⟨c, rq, zq, h, hc, ?_⟩
        rw [State.event, selected_same heq rfl]
        exact Move.stay
      · obtain rfl : s' = s₁ := Option.some.inj (hrun.symm.trans heq₁)
        refine ⟨n, _, zq', hinv, hcur, ?_⟩
        rw [hmachine, State.event, selected_switch (by simp) heq hc hcur hn]
        exact Move.select n rest rfl hn
  | leave hact hd hinv hsame hrun =>
      obtain rfl := Option.some.inj (hc.symm.trans hd)
      rcases hact with rfl | ⟨pid, rfl, hfind⟩
      · refine h.leave_moves hc hinv hsame hrun heq (by simp) fun t ht => ?_
        cases ht
      · refine h.leave_moves hc hinv hsame hrun heq (by simp) fun t ht => ?_
        rw [State.killed, hfind] at ht
        exact (Option.some.inj ht).symm
  | miss hfind =>
      refine ⟨c, rq, zq, h, hc, ?_⟩
      rw [State.event, selected_same heq rfl, State.killed, hfind]
      exact Move.stay
  | @kill pid t s₁ _ hfind hne hinv hsame hsame' =>
      have hkilled : s.killed (.kill pid) = some t := by
        rw [State.killed, hfind]
        rfl
      have htc : t ≠ c := fun h => hne (h ▸ hc)
      have hcur : s'.current = some c := hsame'.current.trans (hsame.current.trans hc)
      refine ⟨c, rq.erase t, zq ++ [t], hinv, hcur, ?_⟩
      have hcells : s'.cells = s.cells := hsame'.cells.trans hsame.cells
      have htasks : s'.tasks c = s.tasks c := by
        rw [hsame'.tasks, state_setState_of_ne s₁ htc.symm, hsame.tasks]
      have hmachine : machine s' c (rq.erase t) = { machine s c rq with line := rq.erase t } := by
        rw [machine, htasks, hcells]
        rfl
      rw [hmachine, State.event, hkilled, selected_same heq (hcur.trans hc.symm)]
      exact Move.kill t htc
  | reap => exact absurd rfl ha

def Emits (s : State) (e : Event ℕ) (s' : State) : Prop :=
  ∃ a, a ≠ .reap ∧ Step s a s' ∧ s.event a = e

def Next (s s' : State) : Prop := ∃ e, Emits s e s'

def OnReadyQueue (s : State) (t : ℕ) : Prop := ∃ rq, Chain s.next s.readyQueue rq ∧ t ∈ rq

def Shows (s : State) (m : Machine ℕ) : Prop :=
  ∃ rq zq c, Inv s rq zq ∧ s.current = some c ∧ m = machine s c rq

theorem shows_simulates : Simulates Emits Move Shows := by
  rintro s e s' m ⟨rq, zq, c, hinv, hc, rfl⟩ ⟨a, ha, hstep, rfl⟩
  obtain ⟨c', rq', zq', hinv', hc', hmove⟩ := hinv.moves hc hstep ha
  exact ⟨_, ⟨rq', zq', c', hinv', hc', rfl⟩, hmove⟩

theorem Shows.ok {m : Machine ℕ} (h : Shows s m) : m.Ok := by
  obtain ⟨rq, zq, c, hinv, hc, rfl⟩ := h
  exact hinv.machine_ok hc

theorem Shows.mem_line {m : Machine ℕ} (h : Shows s m) : OnReadyQueue s t ↔ t ∈ m.line := by
  obtain ⟨rq, zq, c, hinv, hc, rfl⟩ := h
  constructor
  · rintro ⟨l, hl, ht⟩
    rwa [hl.unique hinv.queues.ready] at ht
  · exact fun ht => ⟨rq, hinv.queues.ready, ht⟩

theorem Shows.running {m : Machine ℕ} (h : Shows s m) : s.current = some m.running := by
  obtain ⟨rq, zq, c, -, hc, rfl⟩ := h
  exact hc

theorem shows_run (h0 : s₀.Initial) (hrun : ReflTransGen Next s₀ s) : ∃ m, Shows s m := by
  refine Stable.run (I := fun s => ∃ m, Shows s m) ?_ ?_ hrun
  · rintro s s' ⟨m, hm⟩ ⟨e, hstep⟩
    obtain ⟨m', hm', -⟩ := shows_simulates hm hstep
    exact ⟨m', hm'⟩
  · obtain ⟨rq, zq, hinv⟩ := h0.inv
    obtain ⟨c, hc, -⟩ := hinv.current
    exact ⟨_, rq, zq, c, hinv, hc, rfl⟩

/-- From the moment when `schedule` selects `t`: while `t` runs it is not on the ready queue, so that no
call of `schedule` keeps it at the expense of others, and until `schedule` selects `t` again it selects
each thread that was on the ready queue at that moment, and that has not been killed, exactly once. -/
theorem round_robin (h0 : s₀.Initial) (hrun : ReflTransGen Next s₀ s) (hstep : Emits s e s₁)
    (ht : e.selected = some t) (htrace : Trace Emits s₁ es s₂) :
    (s₂.current = some t → ¬ OnReadyQueue s₂ t) ∧
      (t ∉ selected es → ∀ e' s₃, Emits s₂ e' s₃ → e'.selected = some t →
        ∀ u, OnReadyQueue s₁ u → u ∉ killed es → (selected es).count u = 1) := by
  obtain ⟨m, hm⟩ := shows_run h0 hrun
  obtain ⟨m₁, hm₁, hmove⟩ := shows_simulates hm hstep
  obtain ⟨m₂, hm₂, htrace₂⟩ := shows_simulates.run hm₁ htrace
  obtain ⟨hcur, hline⟩ := hmove.selected hm.ok ht
  have hentered : Entered m₁ t := ⟨hcur ▸ hm₁.ok.running, fun _ => hline⟩
  constructor
  · intro hc
    rw [hm₂.mem_line]
    exact (entered_trace hentered hm₁.ok htrace₂).2 (Option.some.inj (hm₂.running.symm.trans hc))
  · intro hnot e' s₃ hstep' ht' u hu hkill
    obtain ⟨m₃, -, hmove'⟩ := shows_simulates hm₂ hstep'
    exact selected_once hm₁.ok hcur hline (hm₁.mem_line.1 hu) htrace₂ hkill hnot hmove' ht'

/-- Two threads wait in clear memory when `schedule` selects the thread of `idle`, and each of them is
selected once before `idle` is selected again. -/
theorem round_robin_clear :
    ∃ s₀ s₁ s₂, small .clear = some s₀ ∧ s₀.steps [.create 5 6 7, .schedule] = some s₁ ∧
      s₁.steps [.schedule, .schedule] = some s₂ ∧ s₂.event .schedule = ⟨none, some 2⟩ ∧
      OnReadyQueue s₁ 5 ∧ (selected [⟨none, some 5⟩, ⟨none, some 1⟩]).count 5 = 1 := by
  refine ⟨_, _, _, rfl, rfl, rfl, rfl, ?_, ?_⟩
  · exact ⟨[5, 1], ⟨rfl, rfl, rfl⟩, List.mem_cons_self⟩
  have hnext : ∀ {s a s' e}, a ≠ .reap → Step s a s' → s.event a = e → Emits s e s' :=
    fun ha hstep he => ⟨_, ha, hstep, he⟩
  exact (round_robin (@small_initial _ .clear rfl)
    (.single ⟨_, hnext (a := .create 5 6 7) (by simp) ⟨by exact fresh_five, rfl⟩ rfl⟩)
    (hnext (a := .schedule) (by simp) ⟨trivial, rfl⟩ rfl) rfl
    (@Trace.snoc _ _ Emits _ [⟨none, some 5⟩] ⟨none, some 1⟩ _ _
      (@Trace.snoc _ _ Emits _ [] ⟨none, some 5⟩ _ _ Trace.nil
        (hnext (a := .schedule) (by simp) ⟨trivial, rfl⟩ rfl))
      (hnext (a := .schedule) (by simp) ⟨trivial, rfl⟩ rfl))).2 (by decide) _ _
    (hnext (a := .schedule) (by simp) ⟨trivial, rfl⟩ rfl) rfl 5
    ⟨[5, 1], ⟨rfl, rfl, rfl⟩, List.mem_cons_self⟩ (by decide)

end OscKernel.Sched
