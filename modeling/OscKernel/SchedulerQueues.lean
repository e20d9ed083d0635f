import OscKernel.Scheduler

/-!
# The queues of the scheduler

The three queues are chains without a common cell. Appending, removing and popping end on them, and change
one of them.
-/

namespace OscKernel.Sched

open Linked

variable {s s' : State} {rq zq : List ℕ} {t : ℕ}

/-- The queues hold the cells `rq`, none, and `zq`. -/
structure Queues (s : State) (rq zq : List ℕ) : Prop where
  ready : Chain s.next s.readyQueue rq
  wait : s.waitQueue = none
  zombie : Chain s.next s.zombieQueue zq
  nodup : (rq ++ zq).Nodup
  cells : ∀ t ∈ rq ++ zq, t ∈ s.cells

structure SameBut (s s' : State) : Prop where
  tasks : s'.tasks = s.tasks
  threadCnt : s'.threadCnt = s.threadCnt
  current : s'.current = s.current
  live : s'.live = s.live
  cells : s'.cells = s.cells
  boot : s'.boot = s.boot

theorem SameBut.refl (s : State) : SameBut s s := ⟨rfl, rfl, rfl, rfl, rfl, rfl⟩

theorem add_empty {q : Queue} (hq : s.head q = none) (t : ℕ) : s.addThreadTask q t =
    some { s.setHead q (some t) with next := Function.update s.next t none } := by
  rw [State.addThreadTask, hq]

theorem add_last {q : Queue} {a b : ℕ} (hq : s.head q = some a) (hlast : last s.next s.rounds a = some b)
    (t : ℕ) : s.addThreadTask q t =
      some { s with next := Function.update (Function.update s.next b (some t)) t none } := by
  rw [State.addThreadTask, hq]
  simp only [hlast]
  rfl

theorem rm_absent {q : Queue} (hq : before s.next t s.rounds none (s.head q) = some none) :
    s.rmThreadTask q t = some s := by
  rw [State.rmThreadTask, hq]

theorem rm_head {q : Queue} (hq : before s.next t s.rounds none (s.head q) = some (some none)) :
    s.rmThreadTask q t = some (s.setHead q (s.next t)) := by
  rw [State.rmThreadTask, hq]

theorem rm_inner {q : Queue} {b : ℕ}
    (hq : before s.next t s.rounds none (s.head q) = some (some (some b))) :
    s.rmThreadTask q t = some { s with next := Function.update s.next b (s.next t) } := by
  rw [State.rmThreadTask, hq]

namespace Queues

theorem nodup_ready (h : Queues s rq zq) : rq.Nodup := (List.nodup_append.1 h.nodup).1
theorem not_zombie (h : Queues s rq zq) (ht : t ∈ rq) : t ∉ zq :=
  fun hz => (List.nodup_append.1 h.nodup).2.2 t ht t hz rfl

/-- A walk does not run out of rounds. -/
theorem length_lt (h : Queues s rq zq) : rq.length < s.rounds ∧ zq.length < s.rounds := by
  have hle := (List.subperm_of_subset h.nodup h.cells).length_le
  rw [List.length_append] at hle
  rw [State.rounds]
  omega

/-- The queues do not see the other fields. -/
theorem congr (h : Queues s rq zq) (hnext : s'.next = s.next) (hready : s'.readyQueue = s.readyQueue)
    (hwait : s'.waitQueue = s.waitQueue) (hzombie : s'.zombieQueue = s.zombieQueue)
    (hcells : ∀ t ∈ s.cells, t ∈ s'.cells) : Queues s' rq zq where
  ready := by rw [hnext, hready]; exact h.ready
  wait := hwait.trans h.wait
  zombie := by rw [hnext, hzombie]; exact h.zombie
  nodup := h.nodup
  cells t ht := hcells t (h.cells t ht)

theorem setState (h : Queues s rq zq) (t : ℕ) (x : TaskState) : Queues (s.setState t x) rq zq :=
  h.congr rfl rfl rfl rfl fun _ ht => ht

/-- A chain that has neither of the two cells is not changed by appending one to the other. -/
theorem chain_update {next : ℕ → Option ℕ} {hd : Option ℕ} {l : List ℕ} {a b : ℕ} {x y : Option ℕ}
    (hc : Chain next hd l) (ha : a ∉ l) (hb : b ∉ l) :
    Chain (Function.update (Function.update next b x) a y) hd l := by
  refine hc.congr fun c hmem => ?_
  rw [Function.update_of_ne (ne_of_mem_of_not_mem hmem ha),
    Function.update_of_ne (ne_of_mem_of_not_mem hmem hb)]

theorem chain_update_one {next : ℕ → Option ℕ} {hd : Option ℕ} {l : List ℕ} {a : ℕ} {x : Option ℕ}
    (hc : Chain next hd l) (ha : a ∉ l) : Chain (Function.update next a x) hd l :=
  hc.congr fun _ hmem => Function.update_of_ne (ne_of_mem_of_not_mem hmem ha) _ _

theorem nodup_snoc_ready (h : Queues s rq zq) (ht : t ∉ rq ++ zq) : (rq ++ [t] ++ zq).Nodup := by
  rw [List.append_assoc, List.singleton_append]
  exact List.nodup_middle.2 (List.nodup_cons.2 ⟨ht, h.nodup⟩)

/-- A cell that is on no queue goes to the end of the ready queue. -/
theorem add_ready (h : Queues s rq zq) (ht : t ∉ rq ++ zq) (hcell : t ∈ s.cells) :
    ∃ s', s.addThreadTask .ready t = some s' ∧ Queues s' (rq ++ [t]) zq ∧ SameBut s s' ∧
      (rq ≠ [] → s'.readyQueue = s.readyQueue) := by
  have htr : t ∉ rq := fun hmem => ht (List.mem_append_left _ hmem)
  have htz : t ∉ zq := fun hmem => ht (List.mem_append_right _ hmem)
  have hcells : ∀ c ∈ rq ++ [t] ++ zq, c ∈ s.cells := by
    intro c hc
    rcases List.mem_append.1 hc with hc | hc
    · rcases List.mem_append.1 hc with hc | hc
      · exact h.cells c (List.mem_append_left _ hc)
      · rwa [List.mem_singleton.1 hc]
    · exact h.cells c (List.mem_append_right _ hc)
  rcases List.eq_nil_or_concat rq with rfl | ⟨l, b, rfl⟩
  · have hnone : s.readyQueue = none := h.ready
    exact ⟨_, add_empty (q := .ready) hnone t, ⟨Chain.single s.next t, h.wait,
      chain_update_one h.zombie htz, h.nodup_snoc_ready ht, hcells⟩, ⟨rfl, rfl, rfl, rfl, rfl, rfl⟩,
      fun hne => absurd rfl hne⟩
  · obtain ⟨a, ha⟩ : ∃ a, s.readyQueue = some a := by
      cases l with
      | nil => exact ⟨b, h.ready.1⟩
      | cons c l => exact ⟨c, h.ready.1⟩
    have hlen := h.length_lt.1
    rw [List.concat_eq_append] at *
    have hlast : last s.next s.rounds a = some b :=
      last_chain (ha ▸ h.ready) (by simp at hlen; omega)
    have hbz : b ∉ zq := h.not_zombie (by simp)
    exact ⟨_, add_last (q := .ready) ha hlast t, ⟨h.ready.append htr, h.wait,
      chain_update h.zombie htz hbz, h.nodup_snoc_ready ht, hcells⟩, ⟨rfl, rfl, rfl, rfl, rfl, rfl⟩,
      fun _ => rfl⟩

/-- A cell that is on no queue goes to the end of the zombie queue. -/
theorem add_zombie (h : Queues s rq zq) (ht : t ∉ rq ++ zq) (hcell : t ∈ s.cells) :
    ∃ s', s.addThreadTask .zombie t = some s' ∧ Queues s' rq (zq ++ [t]) ∧ SameBut s s' ∧
      s'.readyQueue = s.readyQueue := by
  have htr : t ∉ rq := fun hmem => ht (List.mem_append_left _ hmem)
  have htz : t ∉ zq := fun hmem => ht (List.mem_append_right _ hmem)
  have hnodup : (rq ++ (zq ++ [t])).Nodup := by
    rw [← List.append_assoc]
    exact List.nodup_append.2 ⟨h.nodup, List.nodup_singleton t, fun c hc d hd heq =>
      ht ((List.mem_singleton.1 hd) ▸ heq ▸ hc)⟩
  have hcells : ∀ c ∈ rq ++ (zq ++ [t]), c ∈ s.cells := by
    intro c hc
    rcases List.mem_append.1 (List.append_assoc rq zq [t] ▸ hc) with hc | hc
    · exact h.cells c hc
    · rwa [List.mem_singleton.1 hc]
  rcases List.eq_nil_or_concat zq with rfl | ⟨l, b, rfl⟩
  · have hnone : s.zombieQueue = none := h.zombie
    exact ⟨_, add_empty (q := .zombie) hnone t, ⟨chain_update_one h.ready htr, h.wait,
      Chain.single s.next t, hnodup, hcells⟩, ⟨rfl, rfl, rfl, rfl, rfl, rfl⟩, rfl⟩
  · obtain ⟨a, ha⟩ : ∃ a, s.zombieQueue = some a := by
      cases l with
      | nil => exact ⟨b, h.zombie.1⟩
      | cons c l => exact ⟨c, h.zombie.1⟩
    have hlen := h.length_lt.2
    rw [List.concat_eq_append] at *
    have hlast : last s.next s.rounds a = some b :=
      last_chain (ha ▸ h.zombie) (by simp at hlen; omega)
    have hbr : b ∉ rq := fun hmem => h.not_zombie hmem (by simp)
    exact ⟨_, add_last (q := .zombie) ha hlast t, ⟨chain_update h.ready htr hbr, h.wait,
      h.zombie.append htz, hnodup, hcells⟩, ⟨rfl, rfl, rfl, rfl, rfl, rfl⟩, rfl⟩

theorem rm_wait (h : Queues s rq zq) (t : ℕ) : s.rmThreadTask .wait t = some s := by
  have hnone : before s.next t s.rounds none s.waitQueue = some none := by
    rw [h.wait, State.rounds]
    rfl
  exact rm_absent (q := .wait) hnone

/-- Removing from the ready queue. -/
theorem rm_ready (h : Queues s rq zq) (t : ℕ) :
    ∃ s', s.rmThreadTask .ready t = some s' ∧ Queues s' (rq.erase t) zq ∧ SameBut s s' := by
  have hlen := h.length_lt.1
  by_cases ht : t ∈ rq
  swap
  · have hout : before s.next t s.rounds none s.readyQueue = some none :=
      before_absent h.ready ht hlen.le
    refine ⟨s, rm_absent (q := .ready) hout, ?_, SameBut.refl s⟩
    rwa [List.erase_of_not_mem ht]
  have hsub : (rq.erase t ++ zq).Sublist (rq ++ zq) :=
    List.Sublist.append List.erase_sublist (List.Sublist.refl zq)
  have hnodup := h.nodup.sublist hsub
  have hcells : ∀ c ∈ rq.erase t ++ zq, c ∈ s.cells := fun c hc => h.cells c (hsub.subset hc)
  obtain ⟨l₁, l₂, rfl⟩ := List.append_of_mem ht
  have hnotin : t ∉ l₁ := fun hmem =>
    (List.nodup_append.1 h.nodup_ready).2.2 t hmem t List.mem_cons_self rfl
  have herase : (l₁ ++ t :: l₂).erase t = l₁ ++ l₂ := by
    rw [List.erase_append_right _ hnotin, List.erase_cons_head]
  rw [herase] at hnodup hcells ⊢
  rcases List.eq_nil_or_concat l₁ with rfl | ⟨l, b, rfl⟩
  · have hfirst : before s.next t s.rounds none s.readyQueue = some (some none) := by
      rw [h.ready.1]
      exact before_head (by omega)
    exact ⟨_, rm_head (q := .ready) hfirst, ⟨h.ready.2, h.wait, h.zombie, hnodup, hcells⟩,
      ⟨rfl, rfl, rfl, rfl, rfl, rfl⟩⟩
  · rw [List.concat_eq_append] at *
    have hready : Chain s.next s.readyQueue (l ++ b :: t :: l₂) := by simpa using h.ready
    have hinner : before s.next t s.rounds none s.readyQueue = some (some (some b)) :=
      before_inner hready (by simp at hlen; omega)
    have hbz : b ∉ zq := h.not_zombie (by simp)
    have hbypass : Chain (Function.update s.next b (s.next t)) s.readyQueue (l ++ [b] ++ l₂) := by
      simpa using hready.bypass
    exact ⟨_, rm_inner (q := .ready) hinner, ⟨hbypass, h.wait, chain_update_one h.zombie hbz, hnodup,
      hcells⟩, ⟨rfl, rfl, rfl, rfl, rfl, rfl⟩⟩

/-- A thread is found by its number in the ready queue. -/
theorem getThreadTaskById (h : Queues s rq zq) (pid : ℕ) :
    s.getThreadTaskById pid = some (rq.find? fun t => (s.tasks t).id = pid % 2 ^ 32) := by
  have hready := find_chain h.ready (fun t => (s.tasks t).id = pid % 2 ^ 32) h.length_lt.1.le
  rw [State.getThreadTaskById, hready]
  cases hfound : rq.find? fun t => (s.tasks t).id = pid % 2 ^ 32 with
  | some t => rfl
  | none =>
      have hwait : find s.next (fun t => (s.tasks t).id = pid % 2 ^ 32) s.rounds s.waitQueue = some none := by
        rw [h.wait, State.rounds]
        rfl
      exact hwait

end Queues

end OscKernel.Sched
