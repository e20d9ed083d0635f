import OscKernel.SchedulerQueues

/-!
# The invariant of the scheduler

The members of the ready queue are ready and those of the zombie queue have exited; the current thread is
on no zombie queue. Control blocks and stacks are different blocks in use. Every step keeps this, unless
`kill_zombies` frees the control block of `sched_init` with blocks of others in its stack fields.
-/

namespace OscKernel.Sched

open Linked

variable {s s' : State} {rq zq rest : List ℕ} {t c n k u z p : ℕ} {x : TaskState}

def State.blocksOf (s : State) (t : ℕ) : List ℕ :=
  if s.boot = some t then [t] else [t, (s.tasks t).kernelStack, (s.tasks t).userStack]

theorem mem_blocksOf (s : State) (t : ℕ) : t ∈ s.blocksOf t := by
  rw [State.blocksOf]
  split_ifs <;> exact List.mem_cons_self

structure Blocks (s : State) : Prop where
  zero : 0 ∉ s.live
  nodup : (s.cells.flatMap s.blocksOf).Nodup
  used : ∀ t ∈ s.cells, ∀ p ∈ s.blocksOf t, p ∈ s.live
  boot : ∀ b, s.boot = some b → b ∈ s.cells

namespace Blocks

/-- Two threads have no block in common. -/
theorem disjoint (h : Blocks s) (ht : t ∈ s.cells) (hc : c ∈ s.cells) (hne : t ≠ c) :
    List.Disjoint (s.blocksOf t) (s.blocksOf c) := by
  have hsym : Std.Symm fun a b : ℕ => List.Disjoint (s.blocksOf a) (s.blocksOf b) :=
    ⟨fun _ _ hab => hab.symm⟩
  exact (List.nodup_flatMap.1 h.nodup).2.forall ht hc hne

theorem congr (h : Blocks s) (hlive : s'.live = s.live) (hcells : s'.cells = s.cells)
    (hboot : s'.boot = s.boot) (htasks : ∀ t, s'.blocksOf t = s.blocksOf t) : Blocks s' where
  zero := by rw [hlive]; exact h.zero
  nodup := by rw [hcells, funext htasks]; exact h.nodup
  used t ht p hp := by
    rw [hlive]
    exact h.used t (hcells ▸ ht) p (htasks t ▸ hp)
  boot b hb := by
    rw [hcells]
    exact h.boot b (hboot ▸ hb)

end Blocks

theorem blocksOf_congr (hboot : s'.boot = s.boot) (hk : (s'.tasks t).kernelStack = (s.tasks t).kernelStack)
    (hu : (s'.tasks t).userStack = (s.tasks t).userStack) : s'.blocksOf t = s.blocksOf t := by
  rw [State.blocksOf, State.blocksOf, hboot, hk, hu]

/-- Setting a state changes no stack. -/
theorem tasks_setState (s : State) (t c : ℕ) (x : TaskState) :
    ((s.setState t x).tasks c).kernelStack = (s.tasks c).kernelStack ∧
      ((s.setState t x).tasks c).userStack = (s.tasks c).userStack ∧
      ((s.setState t x).tasks c).id = (s.tasks c).id := by
  rw [State.setState]
  by_cases hc : c = t
  · subst hc
    simp only [Function.update_self, and_self]
  · simp only [Function.update_of_ne hc, and_self]

theorem blocksOf_setState (s : State) (t c : ℕ) (x : TaskState) :
    (s.setState t x).blocksOf c = s.blocksOf c :=
  blocksOf_congr rfl (tasks_setState s t c x).1 (tasks_setState s t c x).2.1

theorem state_setState_self (s : State) (t : ℕ) (x : TaskState) :
    ((s.setState t x).tasks t).state = x := by
  simp only [State.setState, Function.update_self]

theorem state_setState_of_ne (s : State) (h : c ≠ t) (x : TaskState) :
    (s.setState t x).tasks c = s.tasks c := Function.update_of_ne h ..

theorem Blocks.setState (h : Blocks s) (t : ℕ) (x : TaskState) : Blocks (s.setState t x) :=
  h.congr rfl rfl rfl fun c => blocksOf_setState s t c x

theorem Blocks.sameBut (h : Blocks s) (hsame : SameBut s s') : Blocks s' :=
  h.congr hsame.live hsame.cells hsame.boot fun t =>
    blocksOf_congr hsame.boot (by rw [hsame.tasks]) (by rw [hsame.tasks])

structure Inv (s : State) (rq zq : List ℕ) : Prop where
  queues : Queues s rq zq
  blocks : Blocks s
  ready : ∀ t ∈ rq, (s.tasks t).state = .ready
  zombie : ∀ t ∈ zq, (s.tasks t).state = .exited
  notBlocked : ∀ t ∈ s.cells, (s.tasks t).state ≠ .blocked
  current : ∃ c, s.current = some c ∧ c ∈ s.cells ∧ c ∉ zq ∧ ((s.tasks c).state = .ready → c ∈ rq)

namespace Inv

theorem ready_mem (h : Inv s rq zq) (ht : t ∈ rq) : t ∈ s.cells :=
  h.queues.cells t (List.mem_append_left _ ht)

theorem zombie_mem (h : Inv s rq zq) (ht : t ∈ zq) : t ∈ s.cells :=
  h.queues.cells t (List.mem_append_right _ ht)

/-- A thread that is not ready is not in the ready queue. -/
theorem not_ready (h : Inv s rq zq) (ht : (s.tasks t).state ≠ .ready) : t ∉ rq :=
  fun hmem => ht (h.ready t hmem)

end Inv

/-- What `schedule` makes of the state of the thread that it leaves, and of the two queues. -/
def leftState (x : TaskState) : TaskState := if x = .running then .ready else x
def requeue (x : TaskState) (c : ℕ) (l : List ℕ) : List ℕ := if x = .running then l ++ [c] else l
def bury (x : TaskState) (c : ℕ) (l : List ℕ) : List ℕ := if x = .exited then l ++ [c] else l

/-- The thread that is left goes to its queue. -/
theorem Inv.leave (h : Inv s (n :: rest) zq) (hc : s.current = some c) :
    ∃ s₁, s.leave c = some s₁ ∧
      Queues s₁ (requeue (s.tasks c).state c (n :: rest)) (bury (s.tasks c).state c zq) ∧
      SameBut (s.setState c (leftState (s.tasks c).state)) s₁ ∧ s₁.readyQueue = some n := by
  obtain ⟨c', hc', hcell, hcz, -⟩ := h.current
  obtain rfl : c = c' := Option.some.inj (hc.symm.trans hc')
  have hhead : s.readyQueue = some n := h.queues.ready.1
  rw [State.leave]
  cases hx : (s.tasks c).state with
  | running =>
      have hfree : c ∉ (n :: rest) ++ zq := by
        rw [List.mem_append]
        exact fun hmem => hmem.elim (h.not_ready (by rw [hx]; exact nofun)) hcz
      obtain ⟨s₁, heq, hq, hsame, hready⟩ :=
        (h.queues.setState c .ready).add_ready hfree hcell
      exact ⟨s₁, heq, hq, hsame, (hready nofun).trans hhead⟩
  | blocked => exact absurd hx (h.notBlocked c hcell)
  | exited =>
      have hfree : c ∉ (n :: rest) ++ zq := by
        rw [List.mem_append]
        exact fun hmem => hmem.elim (h.not_ready (by rw [hx]; exact nofun)) hcz
      obtain ⟨s₁, heq, hq, hsame, hready⟩ := h.queues.add_zombie hfree hcell
      have hset : s.setState c .exited = s := by
        rw [State.setState, ← hx, Function.update_eq_self]
      exact ⟨s₁, heq, hq, hset.symm ▸ hsame, hready.trans hhead⟩
  | ready =>
      have hset : s.setState c .ready = s := by
        rw [State.setState, ← hx, Function.update_eq_self]
      exact ⟨s, rfl, h.queues, hset.symm ▸ SameBut.refl s, hhead⟩

/-- The head of the ready queue becomes the current thread. -/
theorem Inv.schedule_switch (h : Inv s (n :: rest) zq) (hc : s.current = some c) (hn : n ≠ c) :
    ∃ s', s.schedule = some s' ∧
      Queues s' (requeue (s.tasks c).state c rest) (bury (s.tasks c).state c zq) ∧
      s'.tasks = ((s.setState c (leftState (s.tasks c).state)).setState n .running).tasks ∧
      s'.current = some n ∧ s'.threadCnt = s.threadCnt ∧ s'.live = s.live ∧ s'.cells = s.cells ∧
      s'.boot = s.boot := by
  have hhead : s.readyQueue = some n := h.queues.ready.1
  obtain ⟨s₁, heq, hq, hsame, hready⟩ := h.leave hc
  have hsplit : requeue (s.tasks c).state c (n :: rest) = n :: requeue (s.tasks c).state c rest := by
    rw [requeue, requeue]
    split_ifs <;> rfl
  rw [hsplit] at hq
  have hnodup := hq.nodup
  rw [List.cons_append] at hnodup
  have hcells := hq.cells
  rw [List.cons_append] at hcells
  refine ⟨{ s₁.setState n .running with readyQueue := s₁.next n, current := some n }, ?_,
    ⟨hq.ready.2, hq.wait, hq.zombie, (List.nodup_cons.1 hnodup).2,
      fun t ht => hcells t (List.mem_cons_of_mem _ ht)⟩, ?_, rfl, hsame.threadCnt, hsame.live,
      hsame.cells, hsame.boot⟩
  · simp only [State.schedule, hc, hhead, if_neg hn, heq, Option.bind_eq_bind, Option.bind_some]
    simp only [State.popThreadTask, State.head, State.setState, hready]
    rfl
  · change (s₁.setState n .running).tasks = _
    simp only [State.setState, hsame.tasks]

/-- `schedule` returns at once when no other thread is at the head of the ready queue. -/
theorem schedule_stay (hc : s.current = some c) (hhead : ∀ n, s.readyQueue = some n → n = c) :
    s.schedule = some s := by
  rw [State.schedule, hc]
  cases hq : s.readyQueue with
  | none => rfl
  | some n => exact if_pos (hhead n hq)

theorem state_switch (s : State) (n c t : ℕ) :
    (((s.setState c (leftState (s.tasks c).state)).setState n .running).tasks t).state =
      if t = n then .running else if t = c then leftState (s.tasks c).state else (s.tasks t).state := by
  by_cases htn : t = n
  · rw [if_pos htn, htn, state_setState_self]
  · rw [if_neg htn, state_setState_of_ne _ htn]
    by_cases htc : t = c
    · rw [if_pos htc, htc, state_setState_self]
    · rw [if_neg htc, state_setState_of_ne _ htc]

theorem Inv.switch (h : Inv s (n :: rest) zq) (hc : s.current = some c) (hn : n ≠ c) :
    ∃ s', s.schedule = some s' ∧ s'.current = some n ∧
      Inv s' (requeue (s.tasks c).state c rest) (bury (s.tasks c).state c zq) ∧
      s'.tasks = ((s.setState c (leftState (s.tasks c).state)).setState n .running).tasks ∧
      s'.live = s.live ∧ s'.cells = s.cells ∧ s'.boot = s.boot := by
  obtain ⟨s', heq, hq, htasks, hcur, hcnt, hlive, hcells, hboot⟩ := h.schedule_switch hc hn
  obtain ⟨c', hc', hcell, hcz, -⟩ := h.current
  obtain rfl : c = c' := Option.some.inj (hc.symm.trans hc')
  have hnq : n ∉ rest := (List.nodup_cons.1 h.queues.nodup_ready).1
  have hnz : n ∉ zq := h.queues.not_zombie List.mem_cons_self
  have hstate : ∀ t, (s'.tasks t).state =
      if t = n then .running else if t = c then leftState (s.tasks c).state else (s.tasks t).state := by
    intro t
    rw [htasks, state_switch]
  refine ⟨s', heq, hcur, ⟨hq, ?_, ?_, ?_, ?_, ⟨n, hcur, ?_, ?_, ?_⟩⟩, htasks, hlive, hcells, hboot⟩
  · refine h.blocks.congr hlive hcells hboot fun t => blocksOf_congr hboot ?_ ?_
    · rw [htasks, (tasks_setState _ _ _ _).1, (tasks_setState _ _ _ _).1]
    · rw [htasks, (tasks_setState _ _ _ _).2.1, (tasks_setState _ _ _ _).2.1]
  · intro t ht
    rw [hstate]
    rw [requeue] at ht
    split_ifs at ht with hrun
    · rcases List.mem_append.1 ht with hmem | hmem
      · rw [if_neg (ne_of_mem_of_not_mem hmem hnq)]
        have htc : t ≠ c := by
          rintro rfl
          exact h.not_ready (by rw [hrun]; exact nofun) (List.mem_cons_of_mem _ hmem)
        rw [if_neg htc]
        exact h.ready t (List.mem_cons_of_mem _ hmem)
      · rw [List.mem_singleton.1 hmem, if_neg hn.symm, if_pos rfl, leftState, if_pos hrun]
    · rw [if_neg (ne_of_mem_of_not_mem ht hnq)]
      have hready := h.ready t (List.mem_cons_of_mem _ ht)
      by_cases htc : t = c
      · subst htc
        rw [if_pos rfl, leftState, if_neg hrun, hready]
      · rw [if_neg htc, hready]
  · intro t ht
    rw [hstate]
    have htn : t ≠ n := by
      rintro rfl
      rw [bury] at ht
      split_ifs at ht
      · rcases List.mem_append.1 ht with ht | ht
        · exact hnz ht
        · exact hn (List.mem_singleton.1 ht)
      · exact hnz ht
    rw [if_neg htn]
    rw [bury] at ht
    by_cases htc : t = c
    · subst htc
      split_ifs at ht with hex
      · rw [if_pos rfl, hex]
        rfl
      · exact absurd ht hcz
    · rw [if_neg htc]
      split_ifs at ht
      · exact h.zombie t ((List.mem_append.1 ht).resolve_right fun hmem =>
          htc (List.mem_singleton.1 hmem))
      · exact h.zombie t ht
  · intro t ht
    rw [hstate]
    split_ifs with htn htc
    · exact nofun
    · have hnot := h.notBlocked c hcell
      rw [leftState]
      split_ifs
      · exact nofun
      · exact hnot
    · exact h.notBlocked t (hcells ▸ ht)
  · rw [hcells]
    exact h.ready_mem List.mem_cons_self
  · rw [bury]
    split_ifs
    · rw [List.mem_append, List.mem_singleton]
      exact fun hmem => hmem.elim hnz hn
    · exact hnz
  · rw [hstate, if_pos rfl]
    exact nofun

/-- The outcomes of `schedule`: it stays, or it switches to the head of the ready queue. -/
theorem Inv.schedule_cases (h : Inv s rq zq) (hc : s.current = some c) :
    (s.schedule = some s ∧ ∀ n, rq.head? = some n → n = c) ∨
      ∃ s' n rest, rq = n :: rest ∧ n ≠ c ∧ s.schedule = some s' ∧ s'.current = some n ∧
        Inv s' (requeue (s.tasks c).state c rest) (bury (s.tasks c).state c zq) ∧
        s'.tasks = ((s.setState c (leftState (s.tasks c).state)).setState n .running).tasks ∧
        s'.live = s.live ∧ s'.cells = s.cells ∧ s'.boot = s.boot := by
  cases rq with
  | nil =>
      refine Or.inl ⟨schedule_stay hc fun n hn => ?_, nofun⟩
      rw [show s.readyQueue = none from h.queues.ready] at hn
      cases hn
  | cons n rest =>
      by_cases hn : n = c
      · refine Or.inl ⟨schedule_stay hc fun m hm => ?_, fun m hm => ?_⟩
        · rw [h.queues.ready.1] at hm
          exact (Option.some.inj hm).symm.trans hn
        · exact (Option.some.inj hm).symm.trans hn
      · obtain ⟨s', heq, hcur, hinv, hrest⟩ := h.switch hc hn
        exact Or.inr ⟨s', n, rest, rfl, hn, heq, hcur, hinv, hrest⟩

/-- A thread is taken from the queues and marked as exited. -/
theorem Inv.mark (h : Inv s rq zq) (ht : t ∈ s.cells) (htz : t ∉ zq) :
    ∃ s₁, s.rmThreadTask .ready t = some s₁ ∧ s₁.rmThreadTask .wait t = some s₁ ∧
      Inv (s₁.setState t .exited) (rq.erase t) zq ∧ SameBut s s₁ := by
  obtain ⟨s₁, heq, hq, hsame⟩ := h.queues.rm_ready t
  have hstate : ∀ c, c ≠ t → ((s₁.setState t .exited).tasks c).state = (s.tasks c).state := by
    intro c hne
    rw [state_setState_of_ne _ hne, hsame.tasks]
  refine ⟨s₁, heq, hq.rm_wait t, ⟨hq.setState t .exited, (h.blocks.sameBut hsame).setState t .exited,
    ?_, ?_, ?_, ?_⟩, hsame⟩
  · intro c hmem
    have hne : c ≠ t := by
      rintro rfl
      exact h.queues.nodup_ready.not_mem_erase hmem
    rw [hstate c hne]
    exact h.ready c (List.mem_of_mem_erase hmem)
  · intro c hmem
    rw [hstate c (ne_of_mem_of_not_mem hmem htz)]
    exact h.zombie c hmem
  · intro c hmem
    by_cases hne : c = t
    · rw [hne, state_setState_self]
      exact nofun
    · rw [hstate c hne]
      exact h.notBlocked c (hsame.cells ▸ hmem)
  · obtain ⟨c, hc, hcell, hcz, hready⟩ := h.current
    refine ⟨c, hsame.current.trans hc, hsame.cells.symm ▸ hcell, hcz, fun hr => ?_⟩
    by_cases hne : c = t
    · rw [hne, state_setState_self] at hr
      cases hr
    · rw [hstate c hne] at hr
      exact (List.mem_erase_of_ne hne).2 (hready hr)

theorem Inv.schedule (h : Inv s rq zq) : ∃ s' rq' zq', s.schedule = some s' ∧ Inv s' rq' zq' := by
  obtain ⟨c, hc, -⟩ := h.current
  rcases h.schedule_cases hc with ⟨heq, -⟩ | ⟨s', n, rest, -, -, heq, -, hinv, -⟩
  · exact ⟨s, rq, zq, heq, h⟩
  · exact ⟨s', _, _, heq, hinv⟩

/-- `_exit` marks the current thread and schedules. -/
theorem Inv.exit_eq (h : Inv s rq zq) (hc : s.current = some c) :
    ∃ s₁, s.exit = (s₁.setState c .exited).schedule ∧ Inv (s₁.setState c .exited) (rq.erase c) zq ∧
      SameBut s s₁ := by
  obtain ⟨c', hc', hcell, hcz, -⟩ := h.current
  obtain rfl : c = c' := Option.some.inj (hc.symm.trans hc')
  obtain ⟨s₁, hready, hwait, hinv, hsame⟩ := h.mark hcell hcz
  refine ⟨s₁, ?_, hinv, hsame⟩
  simp only [State.exit, hc, hready, hwait, Option.bind_eq_bind, Option.bind_some]

theorem Inv.exit (h : Inv s rq zq) : ∃ s' rq' zq', s.exit = some s' ∧ Inv s' rq' zq' := by
  obtain ⟨c, hc, -⟩ := h.current
  obtain ⟨s₁, heq, hinv, -⟩ := h.exit_eq hc
  rw [heq]
  exact hinv.schedule

/-- `_kill` finds no thread, or marks one of the ready queue; another one than the current thread goes to
the zombie queue at once. -/
theorem Inv.kill_cases (h : Inv s rq zq) (pid : ℕ) :
    s.kill pid = some (s, -1) ∧ s.getThreadTaskById pid = some none ∨
      ∃ s₁ t, t ∈ rq ∧ s.getThreadTaskById pid = some (some t) ∧
        Inv (s₁.setState t .exited) (rq.erase t) zq ∧ SameBut s s₁ ∧
        (s.current = some t → s.kill pid = ((s₁.setState t .exited).schedule).map fun s => (s, 0)) ∧
        (s.current ≠ some t → ∃ s', s.kill pid = some (s', 0) ∧ Inv s' (rq.erase t) (zq ++ [t]) ∧
          SameBut (s₁.setState t .exited) s') := by
  have hfind := h.queues.getThreadTaskById pid
  cases hres : rq.find? fun t => (s.tasks t).id = pid % 2 ^ 32 with
  | none =>
      rw [hres] at hfind
      refine Or.inl ⟨?_, hfind⟩
      simp only [State.kill, hfind, Option.bind_eq_bind, Option.bind_some]
  | some t =>
      rw [hres] at hfind
      have htr : t ∈ rq := List.mem_of_find?_eq_some hres
      have htz := h.queues.not_zombie htr
      obtain ⟨s₁, hready, hwait, hinv, hsame⟩ := h.mark (h.ready_mem htr) htz
      refine Or.inr ⟨s₁, t, htr, hfind, hinv, hsame, fun hcur => ?_, fun hcur => ?_⟩
      · have hcur₁ : (s₁.setState t .exited).current = some t := hsame.current.trans hcur
        simp only [State.kill, hfind, hready, hwait, Option.bind_eq_bind, Option.bind_some, if_pos hcur₁]
        rw [Option.map_eq_bind]
        rfl
      · have hcur₁ : ¬ (s₁.setState t .exited).current = some t := fun h => hcur (hsame.current.symm.trans h)
        have hfree : t ∉ rq.erase t ++ zq := by
          rw [List.mem_append]
          exact fun hmem => hmem.elim h.queues.nodup_ready.not_mem_erase htz
        have hcell : t ∈ (s₁.setState t .exited).cells := hsame.cells.symm ▸ h.ready_mem htr
        obtain ⟨s', heq, hq, hsame', -⟩ := hinv.queues.add_zombie hfree hcell
        refine ⟨s', ?_, ⟨hq, hinv.blocks.sameBut hsame', ?_, ?_, ?_, ?_⟩, hsame'⟩
        · simp only [State.kill, hfind, hready, hwait, Option.bind_eq_bind, Option.bind_some, if_neg hcur₁,
            heq]
        · rw [hsame'.tasks]
          exact hinv.ready
        · intro c hmem
          rw [hsame'.tasks]
          rcases List.mem_append.1 hmem with hmem | hmem
          · exact hinv.zombie c hmem
          · rw [List.mem_singleton.1 hmem, state_setState_self]
        · rw [hsame'.tasks, hsame'.cells]
          exact hinv.notBlocked
        · obtain ⟨c, hc, hcell', hcz, hcr⟩ := hinv.current
          refine ⟨c, hsame'.current.trans hc, hsame'.cells.symm ▸ hcell', ?_, ?_⟩
          · rw [List.mem_append, List.mem_singleton]
            rintro (hmem | rfl)
            · exact hcz hmem
            · exact hcur (hsame.current.symm.trans hc)
          · rw [hsame'.tasks]
            exact hcr

theorem Inv.kill (h : Inv s rq zq) (pid : ℕ) :
    ∃ s' x rq' zq', s.kill pid = some (s', x) ∧ Inv s' rq' zq' := by
  rcases h.kill_cases pid with ⟨heq, -⟩ | ⟨s₁, t, -, -, hinv, -, hself, hother⟩
  · exact ⟨s, -1, rq, zq, heq, h⟩
  · by_cases hcur : s.current = some t
    · obtain ⟨s', rq', zq', heq, hinv'⟩ := hinv.schedule
      refine ⟨s', 0, rq', zq', ?_, hinv'⟩
      rw [hself hcur, heq]
      rfl
    · obtain ⟨s', heq, hinv', -⟩ := hother hcur
      exact ⟨s', 0, _, _, heq, hinv'⟩

theorem cells_live (h : Blocks s) (ht : t ∈ s.cells) : t ∈ s.live :=
  h.used t ht t (mem_blocksOf s t)

/-- A new control block is on no queue. -/
theorem newThread_queues (hq : Queues s rq zq) (hb : Blocks s) (hf : Fresh s.live t k u) :
    Queues (s.newThread t k u) rq zq ∧ Blocks (s.newThread t k u) ∧ t ∉ rq ++ zq := by
  have htc : t ∉ s.cells := fun hmem => hf.unused.1 (cells_live hb hmem)
  have hfree : t ∉ rq ++ zq := fun hmem => htc (hq.cells t hmem)
  have hboot : s.boot ≠ some t := fun hbt => htc (hb.boot t hbt)
  have hown : (s.newThread t k u).blocksOf t = [t, k, u] := by
    simp only [State.blocksOf, State.newThread, if_neg hboot, Function.update_self]
  have hold : ∀ c ∈ s.cells, (s.newThread t k u).blocksOf c = s.blocksOf c := by
    intro c hc
    have hct : c ≠ t := ne_of_mem_of_not_mem hc htc
    refine blocksOf_congr rfl ?_ ?_ <;> simp only [State.newThread, Function.update_of_ne hct]
  have hfm : s.cells.flatMap (s.newThread t k u).blocksOf = s.cells.flatMap s.blocksOf :=
    List.flatMap_congr hold
  refine ⟨⟨Queues.chain_update_one hq.ready fun hmem => hfree (List.mem_append_left _ hmem), hq.wait,
    Queues.chain_update_one hq.zombie fun hmem => hfree (List.mem_append_right _ hmem), hq.nodup,
    fun c hc => List.mem_cons_of_mem _ (hq.cells c hc)⟩, ⟨?_, ?_, ?_, ?_⟩, hfree⟩
  · obtain ⟨h1, h2, h3⟩ := hf.ne_zero
    simp only [State.newThread, List.mem_cons, not_or]
    exact ⟨h1.symm, h2.symm, h3.symm, hb.zero⟩
  · change ((t :: s.cells).flatMap _).Nodup
    rw [List.flatMap_cons, hown, hfm]
    refine List.nodup_append.2 ⟨?_, hb.nodup, ?_⟩
    · obtain ⟨h1, h2, h3⟩ := hf.distinct
      simp [h1, h2, h3]
    · intro p hp q hpq heq
      obtain ⟨c, hc, hpc⟩ := List.mem_flatMap.1 hpq
      have hlive := hb.used c hc q hpc
      obtain ⟨h1, h2, h3⟩ := hf.unused
      simp only [List.mem_cons, List.not_mem_nil, or_false] at hp
      rcases hp with rfl | rfl | rfl
      · exact h1 (heq ▸ hlive)
      · exact h2 (heq ▸ hlive)
      · exact h3 (heq ▸ hlive)
  · intro c hc p hp
    rcases List.mem_cons.1 hc with rfl | hc
    · rw [hown] at hp
      simp only [List.mem_cons, List.not_mem_nil, or_false] at hp
      simp only [State.newThread, List.mem_cons]
      tauto
    · rw [hold c hc] at hp
      have hlive := hb.used c hc p hp
      simp only [State.newThread, List.mem_cons]
      tauto
  · exact fun b hbt => List.mem_cons_of_mem _ (hb.boot b hbt)

theorem tasks_newThread (s : State) (k u : ℕ) (hne : c ≠ t) : (s.newThread t k u).tasks c = s.tasks c :=
  Function.update_of_ne hne ..

/-- A new thread is ready and at the end of the ready queue. -/
theorem Inv.create (h : Inv s rq zq) (hf : Fresh s.live t k u) :
    ∃ s', s.threadCreate t k u = some s' ∧ Inv s' (rq ++ [t]) zq ∧ SameBut (s.newThread t k u) s' ∧
      t ∉ s.cells := by
  obtain ⟨hq, hb, hfree⟩ := newThread_queues h.queues h.blocks hf
  have htc : t ∉ s.cells := fun hmem => hf.unused.1 (cells_live h.blocks hmem)
  obtain ⟨s', heq, hq', hsame, -⟩ := hq.add_ready hfree List.mem_cons_self
  have hold : ∀ c ∈ s.cells, s'.tasks c = s.tasks c := by
    intro c hc
    rw [hsame.tasks, tasks_newThread s k u (ne_of_mem_of_not_mem hc htc)]
  have hnew : (s'.tasks t).state = .ready := by
    rw [hsame.tasks]
    simp only [State.newThread, Function.update_self]
  refine ⟨s', heq, ⟨hq', hb.sameBut hsame, ?_, ?_, ?_, ?_⟩, hsame, htc⟩
  · intro c hmem
    rcases List.mem_append.1 hmem with hmem | hmem
    · rw [hold c (h.ready_mem hmem)]
      exact h.ready c hmem
    · rwa [List.mem_singleton.1 hmem]
  · intro c hmem
    rw [hold c (h.zombie_mem hmem)]
    exact h.zombie c hmem
  · intro c hmem
    rw [hsame.cells] at hmem
    rcases List.mem_cons.1 hmem with rfl | hmem
    · rw [hnew]
      exact nofun
    · rw [hold c hmem]
      exact h.notBlocked c hmem
  · obtain ⟨c, hc, hcell, hcz, hready⟩ := h.current
    refine ⟨c, hsame.current.trans hc, ?_, hcz, fun hr => ?_⟩
    · rw [hsame.cells]
      exact List.mem_cons_of_mem _ hcell
    · rw [hold c hcell] at hr
      exact List.mem_append_left _ (hready hr)

theorem Inv.fork_eq (h : Inv s rq zq) (t k u : ℕ) : s.sysFork t k u = s.threadCreate t k u := by
  obtain ⟨c, hc, -⟩ := h.current
  rw [State.sysFork, hc]
  rfl

/-- The direct jump enters the new thread, which stays in the ready queue. -/
theorem Inv.jump (h : Inv s rq zq) (hf : Fresh s.live t k u) :
    ∃ s₁, s.jump t k u = some { s₁ with current := some t } ∧
      Inv { s₁ with current := some t } (rq ++ [t]) zq ∧ SameBut (s.newThread t k u) s₁ ∧
      t ∉ s.cells := by
  obtain ⟨s₁, heq, hinv, hsame, htc⟩ := h.create hf
  refine ⟨s₁, ?_, ⟨hinv.queues.congr rfl rfl rfl rfl fun _ ht => ht, hinv.blocks.congr rfl rfl rfl fun _ =>
    rfl, hinv.ready, hinv.zombie, hinv.notBlocked, ⟨t, rfl, ?_, ?_, fun _ => by simp⟩⟩, hsame, htc⟩
  · simp only [State.jump, heq, Option.bind_eq_bind, Option.bind_some]
  · rw [show ({ s₁ with current := some t } : State).cells = _ from hsame.cells]
    exact List.mem_cons_self
  · exact hinv.queues.not_zombie (by simp)

theorem schedInit_inv {tasks : ℕ → ThreadTask} {next : ℕ → Option ℕ} {live : List ℕ} {boot : ℕ}
    (hzero : 0 ∉ live) (hb0 : boot ≠ 0) (hf : Fresh (boot :: live) t k u)
    (heq : schedInit tasks next live boot t k u = some s) : Inv s [t] [] := by
  have hq₀ : Queues ⟨tasks, next, none, none, none, 0, none, boot :: live, [boot], some boot⟩ [] [] :=
    ⟨rfl, rfl, rfl, List.nodup_nil, nofun⟩
  have hb₀ : Blocks ⟨tasks, next, none, none, none, 0, none, boot :: live, [boot], some boot⟩ := by
    refine ⟨?_, ?_, ?_, ?_⟩
    · simp [hzero, hb0.symm]
    · simp [State.blocksOf]
    · intro c hc p hp
      rw [List.mem_singleton.1 hc] at hp
      simp only [State.blocksOf, if_true, List.mem_singleton] at hp
      simp [hp]
    · intro b hbt
      rw [← Option.some.inj hbt]
      exact List.mem_cons_self
  obtain ⟨hq, hb, hfree⟩ := newThread_queues hq₀ hb₀ hf
  obtain ⟨s₁, hadd, hq₁, hsame, -⟩ := hq.add_ready hfree List.mem_cons_self
  have hne : t ≠ boot := fun h => hf.unused.1 (h ▸ List.mem_cons_self)
  have hs : s = { s₁ with current := some boot }.setState boot .running := by
    rw [schedInit, State.threadCreate, hadd] at heq
    exact (Option.some.inj heq).symm
  have hcells : s.cells = [t, boot] := by rw [hs]; exact hsame.cells
  have hready : (s.tasks t).state = .ready := by
    rw [hs, state_setState_of_ne _ hne]
    change (s₁.tasks t).state = _
    rw [hsame.tasks]
    simp only [State.newThread, Function.update_self]
  have hrun : (s.tasks boot).state = .running := by rw [hs, state_setState_self]
  have hq₂ : Queues { s₁ with current := some boot } [t] [] :=
    hq₁.congr rfl rfl rfl rfl fun _ hc => hc
  have hb₂ : Blocks { s₁ with current := some boot } :=
    (hb.sameBut hsame).congr rfl rfl rfl fun _ => rfl
  refine ⟨hs ▸ hq₂.setState boot .running, hs ▸ hb₂.setState boot .running, ?_, nofun, ?_,
    ⟨boot, by rw [hs]; rfl, by simp [hcells], nofun, fun hr => ?_⟩⟩
  · intro c hc
    rwa [List.mem_singleton.1 hc]
  · intro c hc
    rw [hcells] at hc
    rcases List.mem_cons.1 hc with rfl | hc
    · rw [hready]
      exact nofun
    · rw [List.mem_singleton.1 hc, hrun]
      exact nofun
  · rw [hrun] at hr
    cases hr

def State.StacksForeign (s : State) (b : ℕ) : Prop :=
  ∀ t ∈ s.cells, (s.tasks b).kernelStack ∉ s.blocksOf t ∧ (s.tasks b).userStack ∉ s.blocksOf t

/-- When the control block of `sched_init` is to be reaped, its stack fields, which nobody has written,
are no blocks of a thread. -/
def BootHarmless (s : State) : Prop :=
  ∀ b zq, s.boot = some b → Chain s.next s.zombieQueue zq → b ∈ zq → s.StacksForeign b

/-- What is left in use after the blocks of a thread have been freed. -/
theorem mem_freeThread {q : ℕ} : q ∈ (s.freeThread z).live ↔
    q ∈ s.live ∧ q ≠ (s.tasks z).kernelStack ∧ q ≠ (s.tasks z).userStack ∧ q ≠ z := by
  simp only [State.freeThread, State.free, List.mem_filter, decide_eq_true_iff, and_assoc]

theorem mem_cells_freeThread : t ∈ (s.freeThread z).cells ↔ t ∈ s.cells ∧ t ≠ z := by
  simp [State.freeThread, State.free]

theorem blocksOf_freeThread (hne : t ≠ z) : (s.freeThread z).blocksOf t = s.blocksOf t := by
  have hboot : (s.freeThread z).boot = some t ↔ s.boot = some t := by
    change (if s.boot = some z then none else s.boot) = some t ↔ _
    by_cases hb : s.boot = some z
    · rw [if_pos hb, hb]
      exact iff_of_false nofun fun h => hne (Option.some.inj h).symm
    · rw [if_neg hb]
  simp only [State.blocksOf, hboot]
  rfl

/-- One round of `kill_zombies`. -/
theorem Inv.freeThread {z : ℕ} (h : Inv s rq (z :: rest))
    (hboot : s.boot = some z → s.StacksForeign z) :
    s.popThreadTask .zombie = ({ s with zombieQueue := s.next z }, some z) ∧
      Inv (({ s with zombieQueue := s.next z } : State).freeThread z) rq rest := by
  have hhead : s.zombieQueue = some z := h.queues.zombie.1
  have hnodup := h.queues.nodup
  have hznot : z ∉ rq ++ rest := (List.nodup_cons.1 (List.nodup_middle.1 hnodup)).1
  have hzcell : z ∈ s.cells := h.zombie_mem List.mem_cons_self
  have hblocks : ∀ t, t ≠ z →
      (({ s with zombieQueue := s.next z } : State).freeThread z).blocksOf t = s.blocksOf t := by
    intro t hne
    rw [blocksOf_freeThread hne]
    rfl
  have hcells : ∀ t, t ∈ (({ s with zombieQueue := s.next z } : State).freeThread z).cells ↔
      t ∈ s.cells ∧ t ≠ z := fun t => mem_cells_freeThread
  refine ⟨?_, ⟨⟨h.queues.ready, h.queues.wait, h.queues.zombie.2, ?_, ?_⟩, ⟨?_, ?_, ?_, ?_⟩, h.ready,
    fun t ht => h.zombie t (List.mem_cons_of_mem _ ht), ?_, ?_⟩⟩
  · simp only [State.popThreadTask, State.head, hhead]
    rfl
  · exact (List.nodup_cons.1 (List.nodup_middle.1 hnodup)).2
  · intro t ht
    refine (hcells t).2 ⟨h.queues.cells t ?_, ne_of_mem_of_not_mem ht hznot⟩
    rcases List.mem_append.1 ht with ht | ht
    · exact List.mem_append_left _ ht
    · exact List.mem_append_right _ (List.mem_cons_of_mem _ ht)
  · exact fun hmem => h.blocks.zero (mem_freeThread.1 hmem).1
  · have hsub : (s.cells.filter (· ≠ z)).flatMap
        (({ s with zombieQueue := s.next z } : State).freeThread z).blocksOf =
        (s.cells.filter (· ≠ z)).flatMap s.blocksOf :=
      List.flatMap_congr fun t ht => hblocks t (by simpa using (List.mem_filter.1 ht).2)
    change ((s.cells.filter (· ≠ z)).flatMap _).Nodup
    rw [hsub]
    exact h.blocks.nodup.sublist (List.filter_sublist.flatMap _)
  · intro t ht p hp
    obtain ⟨htc, hne⟩ := (hcells t).1 ht
    rw [hblocks t hne] at hp
    have hlive := h.blocks.used t htc p hp
    have hdisj := h.blocks.disjoint htc hzcell hne
    refine mem_freeThread.2 ⟨hlive, ?_, ?_, ?_⟩
    · rintro rfl
      by_cases hb : s.boot = some z
      · exact (hboot hb t htc).1 hp
      · exact hdisj hp (by simp [State.blocksOf, if_neg hb])
    · rintro rfl
      by_cases hb : s.boot = some z
      · exact (hboot hb t htc).2 hp
      · exact hdisj hp (by simp [State.blocksOf, if_neg hb])
    · rintro rfl
      exact hdisj hp (mem_blocksOf s p)
  · intro b hb
    change (if s.boot = some z then none else s.boot) = some b at hb
    split_ifs at hb with hbz
    exact (hcells b).2 ⟨h.blocks.boot b hb, fun heq => hbz (heq ▸ hb)⟩
  · exact fun t ht => h.notBlocked t ((hcells t).1 ht).1
  · obtain ⟨c, hc, hcell, hcz, hready⟩ := h.current
    obtain ⟨hne, hrest⟩ := not_or.1 fun hmem => hcz (List.mem_cons.2 hmem)
    exact ⟨c, hc, (hcells c).2 ⟨hcell, hne⟩, hrest, hready⟩

/-- `kill_zombies` frees the blocks of the threads of the zombie queue, and no others. -/
theorem Inv.killZombiesLoop {rounds : ℕ} (h : Inv s rq zq) (hrounds : zq.length < rounds)
    (hboot : ∀ b, s.boot = some b → b ∈ zq → s.StacksForeign b) :
    ∃ s', State.killZombiesLoop rounds s = some s' ∧ Inv s' rq [] ∧ s'.current = s.current ∧
      s'.tasks = s.tasks ∧ (∀ t, t ∈ s'.cells ↔ t ∈ s.cells ∧ t ∉ zq) ∧
      ∀ p, p ∈ s'.live ↔ p ∈ s.live ∧
        ∀ z ∈ zq, p ≠ (s.tasks z).kernelStack ∧ p ≠ (s.tasks z).userStack ∧ p ≠ z := by
  induction zq generalizing s rounds with
  | nil =>
      obtain ⟨rounds, rfl⟩ : ∃ n, rounds = n + 1 := ⟨rounds - 1, by simp at hrounds; omega⟩
      have hnone : s.zombieQueue = none := h.queues.zombie
      refine ⟨s, ?_, h, rfl, rfl, by simp, by simp⟩
      simp only [State.killZombiesLoop, State.popThreadTask, State.head, hnone]
  | cons z rest ih =>
      obtain ⟨rounds, rfl⟩ : ∃ n, rounds = n + 1 := ⟨rounds - 1, by simp at hrounds; omega⟩
      obtain ⟨hpop, hinv⟩ := h.freeThread fun hb => hboot z hb List.mem_cons_self
      obtain ⟨s', heq, hinv', hcur, htasks, hcells, hlive⟩ := ih hinv (by simpa using hrounds) (by
        intro b hb hmem
        change (if s.boot = some z then none else s.boot) = some b at hb
        split_ifs at hb
        intro t ht
        obtain ⟨htc, hne⟩ := mem_cells_freeThread.1 ht
        rw [blocksOf_freeThread hne]
        exact hboot b hb (List.mem_cons_of_mem _ hmem) t htc)
      refine ⟨s', ?_, hinv', hcur, htasks, fun t => ?_, fun p => ?_⟩
      · rw [State.killZombiesLoop, hpop]
        exact heq
      · rw [hcells, mem_cells_freeThread, List.mem_cons, not_or, and_assoc]
      · rw [hlive, mem_freeThread, List.forall_mem_cons, and_assoc]
        rfl

theorem Inv.killZombies (h : Inv s rq zq) (hboot : BootHarmless s) :
    ∃ s', s.killZombies = some s' ∧ Inv s' rq [] ∧ s'.current = s.current ∧ s'.tasks = s.tasks ∧
      (∀ t, t ∈ s'.cells ↔ t ∈ s.cells ∧ t ∉ zq) ∧
      ∀ p, p ∈ s'.live ↔ p ∈ s.live ∧
        ∀ z ∈ zq, p ≠ (s.tasks z).kernelStack ∧ p ≠ (s.tasks z).userStack ∧ p ≠ z :=
  h.killZombiesLoop h.queues.length_lt.2 fun b hb hmem => hboot b zq hb h.queues.zombie hmem

end OscKernel.Sched
