import OscKernel.SchedulerInvariant

/-!
# Runs of the scheduler

The steps come in any order. The queues stay in order and `kill_zombies` frees what belongs to the
zombies, no thread is lost and no exited thread runs, in all runs that leave out the steps which break
this: reaping the control block of `sched_init` with blocks of others in its fields, a direct jump away
from a running thread, and the exit of the last thread that could run.
-/

namespace OscKernel.Sched

open Linked Relation

variable {s s' s₀ : State} {rq zq rest : List ℕ} {t c n k u z p pid : ℕ} {a : Act}

/-- Every step has a result, which the invariant holds of. -/
theorem Inv.step (h : Inv s rq zq) (hvalid : s.Valid a) (hboot : a = .reap → BootHarmless s) :
    ∃ s' rq' zq', s.step a = some s' ∧ Inv s' rq' zq' := by
  cases a with
  | create t k u =>
      obtain ⟨s', heq, hinv, -⟩ := h.create hvalid
      exact ⟨s', _, _, heq, hinv⟩
  | fork t k u =>
      obtain ⟨s', heq, hinv, -⟩ := h.create hvalid
      exact ⟨s', _, _, (h.fork_eq t k u).trans heq, hinv⟩
  | jump t k u =>
      obtain ⟨s₁, heq, hinv, -⟩ := h.jump hvalid
      exact ⟨_, _, _, heq, hinv⟩
  | schedule => exact h.schedule
  | exit => exact h.exit
  | kill pid =>
      obtain ⟨s', x, rq', zq', heq, hinv⟩ := h.kill pid
      refine ⟨s', rq', zq', ?_, hinv⟩
      simp only [State.step, heq, Option.map_some]
  | reap =>
      obtain ⟨s', heq, hinv, -⟩ := h.killZombies (hboot rfl)
      exact ⟨s', _, _, heq, hinv⟩

/-- What a step comes to, in a state with the queues `rq` and `zq`. A thread that ends leaves its queue before
the code goes on to `schedule`. -/
inductive Outcome (s : State) (rq zq : List ℕ) : Act → State → Prop
  | create {a : Act} {t k u : ℕ} {s' : State} (act : a = .create t k u ∨ a = .fork t k u)
      (inv : Inv s' (rq ++ [t]) zq) (same : SameBut (s.newThread t k u) s') (fresh : t ∉ s.cells) :
      Outcome s rq zq a s'
  | jump {t k u : ℕ} {s₁ : State} (inv : Inv { s₁ with current := some t } (rq ++ [t]) zq)
      (same : SameBut (s.newThread t k u) s₁) (fresh : t ∉ s.cells) :
      Outcome s rq zq (.jump t k u) { s₁ with current := some t }
  | schedule {s' : State} (heq : s.schedule = some s') : Outcome s rq zq .schedule s'
  | leave {a : Act} {c : ℕ} {s₁ s' : State}
      (act : a = .exit ∨ ∃ pid, a = .kill pid ∧ s.getThreadTaskById pid = some (some c))
      (hc : s.current = some c) (inv : Inv (s₁.setState c .exited) (rq.erase c) zq) (same : SameBut s s₁)
      (heq : (s₁.setState c .exited).schedule = some s') : Outcome s rq zq a s'
  | miss {pid : ℕ} (found : s.getThreadTaskById pid = some none) : Outcome s rq zq (.kill pid) s
  | kill {pid t : ℕ} {s₁ s' : State} (found : s.getThreadTaskById pid = some (some t))
      (hne : s.current ≠ some t) (inv : Inv s' (rq.erase t) (zq ++ [t])) (same : SameBut s s₁)
      (same' : SameBut (s₁.setState t .exited) s') : Outcome s rq zq (.kill pid) s'
  | reap {s' : State} (heq : s.killZombies = some s') (inv : Inv s' rq [])
      (current : s'.current = s.current) (tasks : s'.tasks = s.tasks)
      (cells : ∀ t, t ∈ s'.cells ↔ t ∈ s.cells ∧ t ∉ zq) : Outcome s rq zq .reap s'

theorem Inv.outcome (h : Inv s rq zq) (hstep : Step s a s') (hboot : a = .reap → BootHarmless s) :
    Outcome s rq zq a s' := by
  obtain ⟨hvalid, heq⟩ := hstep
  cases a with
  | create t k u =>
      obtain ⟨s₁, heq₁, hinv, hsame, htc⟩ := h.create hvalid
      obtain rfl : s' = s₁ := Option.some.inj (heq.symm.trans heq₁)
      exact Outcome.create (Or.inl rfl) hinv hsame htc
  | fork t k u =>
      obtain ⟨s₁, heq₁, hinv, hsame, htc⟩ := h.create hvalid
      obtain rfl : s' = s₁ := Option.some.inj (heq.symm.trans ((h.fork_eq t k u).trans heq₁))
      exact Outcome.create (Or.inr rfl) hinv hsame htc
  | jump t k u =>
      obtain ⟨s₁, heq₁, hinv, hsame, htc⟩ := h.jump hvalid
      obtain rfl := Option.some.inj (heq.symm.trans heq₁)
      exact Outcome.jump hinv hsame htc
  | schedule => exact Outcome.schedule heq
  | exit =>
      obtain ⟨c, hc, -⟩ := h.current
      obtain ⟨s₁, heq₁, hinv, hsame⟩ := h.exit_eq hc
      exact Outcome.leave (Or.inl rfl) hc hinv hsame (heq₁.symm.trans heq)
  | kill pid =>
      obtain ⟨⟨s₂, x⟩, heq₂, hx⟩ := Option.map_eq_some_iff.1 heq
      obtain rfl : s₂ = s' := hx
      rcases h.kill_cases pid with ⟨hnone, hfind⟩ | ⟨s₁, t, -, hfind, hinv, hsame, hself, hother⟩
      · obtain rfl : s₂ = s := (Prod.mk.inj (Option.some.inj (heq₂.symm.trans hnone))).1
        exact Outcome.miss hfind
      by_cases hcur : s.current = some t
      · rw [hself hcur] at heq₂
        obtain ⟨s₃, heq₃, hs₃⟩ := Option.map_eq_some_iff.1 heq₂
        obtain rfl : s₃ = s₂ := (Prod.mk.inj hs₃).1
        exact Outcome.leave (Or.inr ⟨pid, rfl, hfind⟩) hcur hinv hsame heq₃
      · obtain ⟨s₃, heq₃, hinv', hsame'⟩ := hother hcur
        rw [heq₃] at heq₂
        obtain rfl : s₃ = s₂ := (Prod.mk.inj (Option.some.inj heq₂)).1
        exact Outcome.kill hfind hcur hinv' hsame hsame'
  | reap =>
      obtain ⟨s₁, heq₁, hinv, hcur, htasks, hcells, -⟩ := h.killZombies (hboot rfl)
      obtain rfl : s' = s₁ := Option.some.inj (heq.symm.trans heq₁)
      exact Outcome.reap heq hinv hcur htasks hcells

theorem Inv.of_step (h : Inv s rq zq) (hstep : Step s a s') (hboot : a = .reap → BootHarmless s) :
    ∃ rq' zq', Inv s' rq' zq' := by
  obtain ⟨s₁, rq', zq', heq, hinv⟩ := h.step hstep.1 hboot
  rw [hstep.2] at heq
  rw [Option.some.inj heq]
  exact ⟨rq', zq', hinv⟩

theorem State.Initial.inv (h : s.Initial) : ∃ rq zq, Inv s rq zq := by
  obtain ⟨tasks, next, live, boot, t, k, u, hzero, hb0, -, hf, heq⟩ := h
  exact ⟨_, _, schedInit_inv hzero hb0 hf heq⟩

def SafeStep (s s' : State) : Prop := ∃ a, (a = .reap → BootHarmless s) ∧ Step s a s'

/-- Control blocks and stacks at small addresses: `sched_init` gets `1` for its own block, and `2`, `3`
and `4` for the thread of `idle`. The fields of block `1` hold `boot`. -/
def small (boot : ThreadTask) : Option State :=
  schedInit (fun _ => boot) (fun _ => none) [] 1 2 3 4

def State.steps (s : State) (as : List Act) : Option State := as.foldlM State.step s

theorem small_initial {boot : ThreadTask} (h : small boot = some s) : s.Initial :=
  ⟨_, _, [], 1, 2, 3, 4, by decide, by decide, by decide,
    ⟨⟨by decide, by decide, by decide⟩, ⟨by decide, by decide, by decide⟩, by decide, by decide, by decide⟩,
    h⟩

def ThreadTask.clear : ThreadTask := ⟨0, .ready, 0, 0⟩
def ThreadTask.stale : ThreadTask := ⟨0, .ready, 3, 4⟩

def State.after (s : State) (a : Act) : State := (s.step a).getD s

theorem SafeStep.after {a : Act} (hboot : a = .reap → BootHarmless s) (hvalid : s.Valid a)
    (hsome : (s.step a).isSome) : SafeStep s (s.after a) := by
  obtain ⟨s', hs'⟩ := Option.isSome_iff_exists.1 hsome
  rw [State.after, hs', Option.getD_some]
  exact ⟨a, hboot, hvalid, hs'⟩

end OscKernel.Sched
