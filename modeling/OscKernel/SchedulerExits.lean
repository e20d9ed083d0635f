import OscKernel.SchedulerThreads

/-!
# Threads that have exited

A thread that has exited does not run again, as long as another thread is ready whenever the current one
exits: `schedule` then switches away from it, puts it in the zombie queue, and no queue gets it back. With
no other ready thread `schedule` returns to the thread that called `_exit`.
-/

namespace OscKernel.Sched

open Linked Relation

variable {s s' s₀ s₁ : State} {rq zq rest : List ℕ} {t c n k u z p pid : ℕ} {a : Act} {x : ℤ}

def State.Ends (s : State) : Act → Prop
  | .exit => True
  | .kill pid => ∃ c, s.current = some c ∧ s.getThreadTaskById pid = some (some c)
  | _ => False

def OtherReady (s : State) : Prop :=
  ∃ rq n, Chain s.next s.readyQueue rq ∧ n ∈ rq ∧ s.current ≠ some n

def SwitchesAway (s : State) (a : Act) : Prop :=
  (a = .reap → BootHarmless s) ∧ (s.Ends a → OtherReady s)

def Alive (s : State) : Prop := ∀ c, s.current = some c → (s.tasks c).state ≠ .exited

theorem otherReady_iff (h : Inv s rq zq) (hc : s.current = some c) :
    OtherReady s ↔ rq.erase c ≠ [] := by
  have hnodup := h.queues.nodup_ready
  constructor
  · rintro ⟨rq', n, hchain, hn, hne⟩
    rw [hchain.unique h.queues.ready] at hn
    have hnc : n ≠ c := fun heq => hne (hc.trans (congrArg some heq.symm))
    exact List.ne_nil_of_mem ((List.mem_erase_of_ne hnc).2 hn)
  · intro hne
    obtain ⟨n, hn⟩ := List.exists_mem_of_ne_nil _ hne
    obtain ⟨hnc, hmem⟩ := (hnodup.mem_erase_iff).1 hn
    exact ⟨rq, n, h.queues.ready, hmem, fun heq => hnc (Option.some.inj (heq.symm.trans hc))⟩

/-- The current thread has been marked as exited: `schedule` leaves it if and only if another thread is
ready, and otherwise returns to it. -/
theorem Inv.schedule_exited (h : Inv s rq zq) (hc : s.current = some c)
    (hinv : Inv (s₁.setState c .exited) (rq.erase c) zq) (hsame : SameBut s s₁) :
    ∃ s' rq' zq', (s₁.setState c .exited).schedule = some s' ∧ Inv s' rq' zq' ∧
      (s'.current ≠ some c ↔ OtherReady s) ∧ (OtherReady s ↔ Alive s') := by
  have hcur : (s₁.setState c .exited).current = some c := hsame.current.trans hc
  rw [otherReady_iff h hc]
  rcases hinv.schedule_cases hcur with ⟨heq, hhead⟩ | ⟨s', n, rest, hrq, hn, heq, hcur', hinv', htasks, -⟩
  · have hnil : rq.erase c = [] := by
      cases hx : rq.erase c with
      | nil => rfl
      | cons n rest =>
          have hnc : n = c := hhead n (by rw [hx]; rfl)
          have hmem : c ∈ rq.erase c := by rw [hx, hnc]; exact List.mem_cons_self
          exact absurd hmem h.queues.nodup_ready.not_mem_erase
    refine ⟨_, _, _, heq, hinv, iff_of_false (not_not.2 hcur) (not_not.2 hnil), iff_of_false (not_not.2 hnil)
      fun halive => halive c hcur (state_setState_self _ _ _)⟩
  · have hne : rq.erase c ≠ [] := by rw [hrq]; exact List.cons_ne_nil _ _
    refine ⟨s', _, _, heq, hinv', iff_of_true ?_ hne, iff_of_true hne fun d hd => ?_⟩
    · rw [hcur']
      exact fun heq => hn (Option.some.inj heq)
    · obtain rfl : n = d := Option.some.inj (hcur'.symm.trans hd)
      rw [htasks, state_setState_self]
      exact nofun

theorem Alive.schedule (ha : Alive s) (h : Inv s rq zq) (heq : s.schedule = some s') : Alive s' := by
  obtain ⟨c, hc, -⟩ := h.current
  rcases h.schedule_cases hc with ⟨heq', -⟩ | ⟨s₁, n, rest, -, -, heq', hcur, -, htasks, -⟩
  · rwa [← Option.some.inj (heq'.symm.trans heq)]
  · obtain rfl : s₁ = s' := Option.some.inj (heq'.symm.trans heq)
    intro d hd
    obtain rfl : n = d := Option.some.inj (hcur.symm.trans hd)
    rw [htasks, state_setState_self]
    exact nofun

theorem Alive.create (ha : Alive s) (h : Inv s rq zq) (hsame : SameBut (s.newThread t k u) s₁)
    (htc : t ∉ s.cells) : Alive s₁ := by
  intro c hc
  obtain ⟨d, hd, hcell, -⟩ := h.current
  have hcur : s.current = some c := hsame.current.symm.trans hc
  obtain rfl : c = d := Option.some.inj (hcur.symm.trans hd)
  rw [hsame.tasks, tasks_newThread s k u (ne_of_mem_of_not_mem hcell htc)]
  exact ha c hcur

theorem Alive.step (ha : Alive s) (h : Inv s rq zq) (hstep : Step s a s') (hsafe : SwitchesAway s a) :
    Alive s' := by
  cases h.outcome hstep hsafe.1 with
  | create _ _ hsame htc => exact ha.create h hsame htc
  | @jump t _ _ s₁ _ hsame _ =>
      intro c hc
      obtain rfl : t = c := Option.some.inj hc
      change (s₁.tasks t).state ≠ _
      rw [hsame.tasks]
      simp [State.newThread]
  | schedule heq => exact ha.schedule h heq
  | leave hact hc hinv hsame heq =>
      obtain ⟨s₂, -, -, heq₂, -, -, halive⟩ := h.schedule_exited hc hinv hsame
      obtain rfl : s' = s₂ := Option.some.inj (heq.symm.trans heq₂)
      refine halive.1 (hsafe.2 ?_)
      rcases hact with rfl | ⟨pid, rfl, hfind⟩
      · trivial
      · exact ⟨_, hc, hfind⟩
  | miss => exact ha
  | @kill _ t _ _ _ hcur _ hsame hsame' =>
      intro c hc
      have hc' : s.current = some c := hsame.current.symm.trans (hsame'.current.symm.trans hc)
      have hne : c ≠ t := fun hct => hcur (hc'.trans (congrArg some hct))
      rw [hsame'.tasks, state_setState_of_ne _ hne, hsame.tasks]
      exact ha c hc'
  | reap _ _ hcur htasks _ =>
      intro c hc
      rw [htasks]
      exact ha c (hcur.symm.trans hc)

def Gone (s : State) (t : ℕ) : Prop := t ∈ s.cells → (s.tasks t).state = .exited

def Act.created : Act → Option ℕ
  | .create t _ _ | .fork t _ _ | .jump t _ _ => some t
  | _ => none

theorem Gone.schedule (hg : Gone s t) (h : Inv s rq zq) (heq : s.schedule = some s') : Gone s' t := by
  obtain ⟨c, hc, -⟩ := h.current
  rcases h.schedule_cases hc with
    ⟨heq', -⟩ | ⟨s₁, n, rest, hrq, -, heq', -, -, htasks, -, hcells, -⟩
  · rwa [← Option.some.inj (heq'.symm.trans heq)]
  obtain rfl : s₁ = s' := Option.some.inj (heq'.symm.trans heq)
  intro ht
  have hex := hg (hcells ▸ ht)
  have hmem : n ∈ rq := by rw [hrq]; exact List.mem_cons_self
  have htn : t ≠ n := by
    rintro rfl
    rw [h.ready t hmem] at hex
    cases hex
  rw [htasks, state_switch, if_neg htn]
  by_cases htc : t = c
  · rw [if_pos htc, ← htc, hex]
    rfl
  · rw [if_neg htc, hex]

theorem Gone.mark (hg : Gone s t) (hsame : SameBut s s₁) (c : ℕ) : Gone (s₁.setState c .exited) t := by
  intro ht
  by_cases htc : t = c
  · rw [htc, state_setState_self]
  · rw [state_setState_of_ne _ htc, hsame.tasks]
    exact hg (hsame.cells ▸ ht)

theorem Gone.sameBut (hg : Gone s t) (hsame : SameBut s s') : Gone s' t := by
  intro ht
  rw [hsame.tasks]
  exact hg (hsame.cells ▸ ht)

theorem Gone.newThread (hg : Gone s t) (hne : t ≠ c) : Gone (s.newThread c k u) t := by
  intro ht
  rw [tasks_newThread s k u hne]
  exact hg ((List.mem_cons.1 ht).resolve_left hne)

theorem Gone.step (hg : Gone s t) (h : Inv s rq zq) (hstep : Step s a s') (hboot : a = .reap → BootHarmless s)
    (hnew : a.created ≠ some t) : Gone s' t := by
  cases h.outcome hstep hboot with
  | @create _ c _ _ _ hact _ hsame _ =>
      have hcreated : a.created = some c := by rcases hact with rfl | rfl <;> rfl
      have hne : t ≠ c := fun htc => hnew (hcreated.trans (congrArg some htc.symm))
      exact (hg.newThread hne).sameBut hsame
  | @jump c k u s₁ _ hsame _ =>
      have hg₁ : Gone s₁ t := (hg.newThread fun htc => hnew (congrArg some htc.symm)).sameBut hsame
      exact hg₁
  | schedule heq => exact hg.schedule h heq
  | @leave _ c _ _ _ _ hinv hsame heq => exact (hg.mark hsame c).schedule hinv heq
  | miss => exact hg
  | @kill _ c _ _ _ _ _ hsame hsame' => exact (hg.mark hsame c).sameBut hsame'
  | reap _ _ _ htasks hcells =>
      intro ht
      rw [htasks]
      exact hg ((hcells t).1 ht).1

end OscKernel.Sched
