import OscKernel.SchedulerRuns

/-!
# Threads that are lost

A thread that has not exited is the current one or in the ready queue, as long as no direct jump leaves a
running thread behind.
-/

namespace OscKernel.Sched

open Linked Relation

variable {s s' s₀ s₁ : State} {rq zq rest : List ℕ} {t c n k u z p pid : ℕ} {a : Act} {x : ℤ}

def Kept (s : State) (rq : List ℕ) : Prop :=
  ∀ t ∈ s.cells, s.boot ≠ some t → (s.tasks t).state ≠ .exited → s.current = some t ∨ t ∈ rq

theorem Kept.schedule (hk : Kept s rq) (h : Inv s rq zq) :
    ∃ s' rq' zq', s.schedule = some s' ∧ Inv s' rq' zq' ∧ Kept s' rq' := by
  obtain ⟨c, hc, hcell, -, hready⟩ := h.current
  rcases h.schedule_cases hc with
    ⟨heq, -⟩ | ⟨s', n, rest, rfl, hn, heq, hcur, hinv, htasks, -, hcells, hboot⟩
  · exact ⟨s, rq, zq, heq, h, hk⟩
  refine ⟨s', _, _, heq, hinv, fun t ht hbt hstate => ?_⟩
  rw [hcells] at ht
  rw [hboot] at hbt
  rw [htasks, state_switch] at hstate
  by_cases htn : t = n
  · exact Or.inl (htn ▸ hcur)
  rw [if_neg htn] at hstate
  have hrest : ∀ {d}, d ∈ rest → d ∈ requeue (s.tasks c).state c rest := by
    intro d hd
    rw [requeue]
    split_ifs
    · exact List.mem_append_left _ hd
    · exact hd
  by_cases htc : t = c
  · subst htc
    rw [if_pos rfl] at hstate
    cases hx : (s.tasks t).state with
    | running => exact Or.inr (by simp [requeue])
    | ready => exact Or.inr (hx ▸ hrest ((List.mem_cons.1 (hready hx)).resolve_left htn))
    | exited =>
        rw [hx] at hstate
        exact absurd rfl hstate
    | blocked => exact absurd hx (h.notBlocked t hcell)
  · rw [if_neg htc] at hstate
    rcases hk t ht hbt hstate with hcur' | hmem
    · exact absurd (Option.some.inj (hcur'.symm.trans hc)) htc
    · exact Or.inr (hrest ((List.mem_cons.1 hmem).resolve_left htn))

theorem Kept.mark (hk : Kept s rq) (hsame : SameBut s s₁) (t : ℕ) :
    Kept (s₁.setState t .exited) (rq.erase t) := by
  intro c hcell hbc hstate
  have hne : c ≠ t := by
    rintro rfl
    exact hstate (state_setState_self s₁ c .exited)
  rw [state_setState_of_ne _ hne, hsame.tasks] at hstate
  rcases hk c (hsame.cells ▸ hcell) (fun h => hbc (hsame.boot.trans h)) hstate with hc | hmem
  · exact Or.inl (hsame.current.trans hc)
  · exact Or.inr ((List.mem_erase_of_ne hne).2 hmem)

theorem Kept.sameBut (hk : Kept s rq) (hsame : SameBut s s') : Kept s' rq := by
  intro t ht hbt hstate
  rw [hsame.cells] at ht
  rw [hsame.boot] at hbt
  rw [hsame.tasks] at hstate
  rw [hsame.current]
  exact hk t ht hbt hstate

theorem Kept.create (hk : Kept s rq) (hsame : SameBut (s.newThread t k u) s') (htc : t ∉ s.cells) :
    Kept s' (rq ++ [t]) := by
  intro c hcell hbc hstate
  rw [hsame.cells] at hcell
  rw [hsame.boot] at hbc
  rcases List.mem_cons.1 hcell with rfl | hcell
  · exact Or.inr (by simp)
  · rw [hsame.tasks, tasks_newThread s k u (ne_of_mem_of_not_mem hcell htc)] at hstate
    rw [hsame.current]
    exact (hk c hcell hbc hstate).imp_right fun hmem => List.mem_append_left _ hmem

def LeavesSafely (s : State) : Prop :=
  ∀ c, s.current = some c → s.boot ≠ some c → (s.tasks c).state ≠ .running

theorem Kept.jump (hk : Kept s rq) (h : Inv s rq zq) (hleaves : LeavesSafely s)
    (hsame : SameBut (s.newThread t k u) s₁) (htc : t ∉ s.cells) :
    Kept { s₁ with current := some t } (rq ++ [t]) := by
  intro c hcell hbc hstate
  rcases (hk.create hsame htc) c hcell hbc hstate with hc | hmem
  · have hcur : s.current = some c := hsame.current.symm.trans hc
    obtain ⟨d, hd, hdcell, -, hready⟩ := h.current
    obtain rfl : c = d := Option.some.inj (hcur.symm.trans hd)
    have htasks : s₁.tasks c = s.tasks c := by
      rw [hsame.tasks, tasks_newThread s k u (ne_of_mem_of_not_mem hdcell htc)]
    cases hx : (s.tasks c).state with
    | ready => exact Or.inr (List.mem_append_left _ (hready hx))
    | running => exact absurd hx (hleaves c hcur fun hb => hbc (hsame.boot.trans hb))
    | blocked => exact absurd hx (h.notBlocked c hdcell)
    | exited =>
        change (s₁.tasks c).state ≠ .exited at hstate
        rw [htasks] at hstate
        exact absurd hx hstate
  · exact Or.inr hmem

def KeepsThreads (s : State) (a : Act) : Prop :=
  (a = .reap → BootHarmless s) ∧ ∀ t k u, a = .jump t k u → LeavesSafely s

/-- A control block that `kill_zombies` leaves in use is the one of `sched_init` if it was it before. -/
theorem killZombiesLoop_boot {rounds : ℕ} (heq : State.killZombiesLoop rounds s = some s')
    (ht : t ∈ s'.cells) : t ∈ s.cells ∧ (s.boot = some t → s'.boot = some t) := by
  induction rounds generalizing s with
  | zero => cases heq
  | succ rounds ih =>
      cases hz : s.zombieQueue with
      | none =>
          simp only [State.killZombiesLoop, State.popThreadTask, State.head, hz] at heq
          rw [← Option.some.inj heq] at ht ⊢
          exact ⟨ht, id⟩
      | some z =>
          simp only [State.killZombiesLoop, State.popThreadTask, State.head, hz] at heq
          obtain ⟨htc, hboot⟩ := ih heq
          obtain ⟨hcell, hne⟩ := mem_cells_freeThread.1 htc
          refine ⟨hcell, fun hb => hboot ?_⟩
          change (if s.boot = some z then none else s.boot) = some t
          rw [if_neg fun hbz => hne (Option.some.inj (hb.symm.trans hbz)), hb]

theorem Kept.step (hk : Kept s rq) (h : Inv s rq zq) (hstep : Step s a s') (ha : KeepsThreads s a) :
    ∃ rq' zq', Inv s' rq' zq' ∧ Kept s' rq' := by
  cases h.outcome hstep ha.1 with
  | create _ hinv hsame htc => exact ⟨_, _, hinv, hk.create hsame htc⟩
  | @jump t k u _ hinv hsame htc => exact ⟨_, _, hinv, hk.jump h (ha.2 t k u rfl) hsame htc⟩
  | schedule heq =>
      obtain ⟨s₁, rq', zq', heq₁, hinv, hk'⟩ := hk.schedule h
      obtain rfl : s' = s₁ := Option.some.inj (heq.symm.trans heq₁)
      exact ⟨_, _, hinv, hk'⟩
  | @leave _ c _ _ _ _ hinv hsame heq =>
      obtain ⟨s₂, rq', zq', heq₂, hinv', hk'⟩ := (hk.mark hsame c).schedule hinv
      obtain rfl : s' = s₂ := Option.some.inj (heq.symm.trans heq₂)
      exact ⟨_, _, hinv', hk'⟩
  | miss => exact ⟨_, _, h, hk⟩
  | @kill _ t _ _ _ _ hinv hsame hsame' => exact ⟨_, _, hinv, (hk.mark hsame t).sameBut hsame'⟩
  | reap heq hinv hcur htasks _ =>
      refine ⟨_, _, hinv, fun t ht hbt hstate => ?_⟩
      obtain ⟨hcell, hboot⟩ := killZombiesLoop_boot heq ht
      rw [htasks] at hstate
      rw [hcur]
      exact hk t hcell (fun hb => hbt (hboot hb)) hstate

theorem State.Initial.kept (h : s.Initial) : ∃ rq zq, Inv s rq zq ∧ Kept s rq := by
  obtain ⟨tasks, next, live, boot, t, k, u, hzero, hb0, -, hf, heq⟩ := h
  refine ⟨_, _, schedInit_inv hzero hb0 hf heq, fun c hc hbc hstate => ?_⟩
  have hcells : s.cells = [t, boot] ∧ s.boot = some boot := by
    rw [← Option.some.inj heq]
    exact ⟨rfl, rfl⟩
  rw [hcells.1] at hc
  rcases List.mem_cons.1 hc with rfl | hc
  · exact Or.inr List.mem_cons_self
  · rw [List.mem_singleton.1 hc] at hbc
    exact absurd hcells.2 hbc

theorem fresh_five : Fresh [2, 3, 4, 1] 5 6 7 :=
  ⟨by decide, by decide, by decide⟩

theorem fresh_eight : Fresh [5, 6, 7, 2, 3, 4, 1] 8 9 10 :=
  ⟨by decide, by decide, by decide⟩

end OscKernel.Sched
