import OscKernel.RoundRobin

/-!
# First come, first served

A thread that waits gets the processor after the threads in front of it, which `schedule` selects in their
order. The only thread that can hold up the queue is one that was entered directly and has come to its head.
-/

namespace OscKernel.Sched

open Linked Relation Runs Fifo

variable {s s' s₀ s₁ : State} {rq zq front rest : List ℕ} {c u : ℕ} {es es₀ : List (Event ℕ)}

theorem State.Initial.shows (h : s.Initial) : ∃ m, Shows s m := by
  obtain ⟨rq, zq, hinv⟩ := h.inv
  obtain ⟨c, hc, -⟩ := hinv.current
  exact ⟨_, rq, zq, c, hinv, hc, rfl⟩

theorem Shows.behind {m : Machine ℕ} (h : Shows s m) (hrq : Chain s.next s.readyQueue (front ++ u :: rest))
    (hu : s.current ≠ some u) : Behind m front u := by
  constructor
  · obtain ⟨rq, zq, c, hinv, hc, rfl⟩ := h
    exact ⟨rest, hinv.queues.ready.unique hrq⟩
  · intro heq
    exact hu (heq ▸ h.running)

/-- A call of `schedule` that does not switch although a thread waits: the current thread is at the head. -/
theorem Shows.stays {m : Machine ℕ} (h : Shows s m) (hb : Behind m front u) (hstep : s.schedule = some s₁)
    (hcur : s₁.current = s.current) :
    ∃ c, s.current = some c ∧ s.readyQueue = some c ∧ m.running = c ∧ c ∈ m.line := by
  obtain ⟨rq, zq, c, hinv, hc, rfl⟩ := h
  obtain ⟨l, hline⟩ := hb.line
  obtain rfl : rq = front ++ u :: l := hline
  obtain ⟨n, hn⟩ : ∃ n, (front ++ u :: l).head? = some n := by
    cases front with
    | nil => exact ⟨u, rfl⟩
    | cons x front => exact ⟨x, rfl⟩
  rcases hinv.schedule_move hc with ⟨-, hhead⟩ | ⟨s₂, n, rest, zq', heq, -, hne, hcur₂, -⟩
  · obtain rfl := hhead n hn
    refine ⟨n, hc, ?_, rfl, List.mem_of_mem_head? hn⟩
    have hchain := hinv.queues.ready
    cases hl : front ++ u :: l with
    | nil =>
        rw [hl] at hn
        cases hn
    | cons x l' =>
        rw [hl] at hn hchain
        rw [← hn]
        exact hchain.1
  · obtain rfl := Option.some.inj (hstep.symm.trans heq)
    rw [hcur₂, hc] at hcur
    exact absurd (Option.some.inj hcur) hne

/-- While `u` waits, `schedule` selects only threads that were in front of `u`, each once and in their order,
and `u` stays on the queue. A call of `schedule` does not switch only if the current thread is at the head of
the queue, and then it has never been selected: it was entered directly. -/
theorem first_come_first_served (h0 : s₀.Initial) (hrun₀ : Trace Emits s₀ es₀ s)
    (hrq : Chain s.next s.readyQueue (front ++ u :: rest)) (hu : s.current ≠ some u)
    (hrun : Trace Emits s es s') (hkill : u ∉ killed es) (hselect : u ∉ selected es) :
    (selected es).Sublist front ∧ OnReadyQueue s' u ∧ s'.current ≠ some u ∧
      ∀ s₁, Step s' .schedule s₁ → s₁.current = s'.current →
        ∃ c, s'.current = some c ∧ s'.readyQueue = some c ∧ c ∉ selected es₀ ∧ c ∉ selected es := by
  obtain ⟨m₀, hm₀⟩ := h0.shows
  obtain ⟨m, hm, htrace₀⟩ := shows_simulates.run hm₀ hrun₀
  obtain ⟨m', hm', htrace⟩ := shows_simulates.run hm hrun
  obtain ⟨front', hb, hsub⟩ := (hm.behind hrq hu).trace hm.ok htrace hkill hselect
  obtain ⟨l, hline⟩ := hb.line
  refine ⟨(List.sublist_append_left ..).trans hsub, ?_, ?_, ?_⟩
  · rw [hm'.mem_line, hline]
    simp
  · intro heq
    exact hb.other (Option.some.inj (hm'.running.symm.trans heq))
  · intro s₁ hstep hcur
    obtain ⟨c, hc, hhead, hrunning, hmem⟩ := hm'.stays hb hstep.2 hcur
    refine ⟨c, hc, hhead, fun hc₀ => ?_, fun hces => ?_⟩
    · have hentered := entered_trace (entered_of_selected hm₀.ok htrace₀ hc₀) hm.ok htrace
      exact hentered.2 hrunning hmem
    · exact (entered_of_selected hm.ok htrace hces).2 hrunning hmem

/-- Two threads are made in clear memory behind the one of `idle`, which `schedule` selects first. -/
theorem first_come_first_served_clear :
    ∃ s₀ s s', small .clear = some s₀ ∧ s₀.steps [.create 5 6 7, .create 8 9 10] = some s ∧
      s.steps [.schedule] = some s' ∧ (selected [⟨none, some 2⟩]).Sublist [2] ∧ OnReadyQueue s' 5 ∧
      s'.current ≠ some 5 ∧ ∀ s₁, Step s' .schedule s₁ → s₁.current = s'.current →
        ∃ c, s'.current = some c ∧ s'.readyQueue = some c ∧ c ∉ selected [⟨none, none⟩, ⟨none, none⟩] ∧
          c ∉ selected [⟨none, some 2⟩] := by
  have hnext : ∀ {s a s' e}, a ≠ .reap → Step s a s' → s.event a = e → Emits s e s' :=
    fun ha hstep he => ⟨_, ha, hstep, he⟩
  refine ⟨_, _, _, rfl, rfl, rfl, ?_⟩
  exact first_come_first_served (@small_initial _ .clear rfl)
    (@Trace.snoc _ _ Emits _ [⟨none, none⟩] ⟨none, none⟩ _ _
      (@Trace.snoc _ _ Emits _ [] ⟨none, none⟩ _ _ Trace.nil
        (hnext (a := .create 5 6 7) (by simp) ⟨by exact fresh_five, rfl⟩ rfl))
      (hnext (a := .create 8 9 10) (by simp) ⟨by exact fresh_eight, rfl⟩ rfl))
    (show Chain _ _ ([2] ++ 5 :: [8]) by exact ⟨rfl, rfl, rfl, rfl⟩) (by decide)
    (@Trace.snoc _ _ Emits _ [] ⟨none, some 2⟩ _ _ Trace.nil
      (hnext (a := .schedule) (by simp) ⟨trivial, rfl⟩ rfl))
    (by decide) (by decide)

end OscKernel.Sched
