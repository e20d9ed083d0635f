import OscKernel.SchedulerExits

/-!
# Finding and killing a thread

`get_thread_task_by_id` scans the two queues, and nothing else. So `_kill` and `sys_sigkill` reach a thread
exactly when it is in the ready queue, before any other thread with its id. The thread that is running is
usually in no queue.
-/

namespace OscKernel.Sched

open Linked Relation

variable {s s' s₀ s₁ : State} {rq zq : List ℕ} {t u pid : ℕ} {sig : ℤ}

def sigNum : ℤ := 32

theorem schedule_cells (h : Inv s rq zq) (heq : s.schedule = some s') : s'.cells = s.cells := by
  obtain ⟨c, hc, -⟩ := h.current
  rcases h.schedule_cases hc with ⟨hstay, -⟩ | ⟨s₁, n, rest, -, -, hswitch, -, -, -, -, hcells, -⟩
  · rw [Option.some.inj (heq.symm.trans hstay)]
  · rw [Option.some.inj (heq.symm.trans hswitch), hcells]

end OscKernel.Sched
