import OscKernel.ForkChild

/-!
# Runs with threads

Threads are created, fork and are reaped, and in between the rest of the kernel works on their control blocks,
the files and the memory. In every state reached the control block and the stacks of a thread are blocks in
use, and the threads have different ones.
-/

namespace OscKernel.Proc

open Relation Runs
open Vfs (Extends threadStackSize sizeofThreadTask sizeofTrapFrame)

variable {k : ForkSymbols} {s s' : Threads} {e : Entry} {t u c : ℕ} {b : ℕ × ℕ}

def Threads.own (s : Threads) (t : ℕ) : List (ℕ × ℕ) :=
  [((s.blocks t).userStack, threadStackSize), ((s.blocks t).kernelStack, threadStackSize),
    (t, sizeofThreadTask)]

def Threads.reap (s : Threads) (t : ℕ) : Threads :=
  { ((s.free (s.blocks t).kernelStack).free (s.blocks t).userStack).free t with
    threads := s.threads.filter (· ≠ t) }

/-- What other code does: it may change all of the state but the threads, their numbers and their stacks, and
it does not free the blocks of a thread. -/
structure Other (s s' : Threads) : Prop where
  heap : s'.fs.heap.Ok
  threads : s'.threads = s.threads
  threadCnt : s'.threadCnt = s.threadCnt
  id : ∀ t ∈ s.threads, (s'.blocks t).id = (s.blocks t).id
  own : ∀ t ∈ s.threads, s'.own t = s.own t
  live : ∀ t ∈ s.threads, ∀ b ∈ s.own t, b ∈ s'.fs.heap.live
  queue : ∀ t ∈ s'.readyQueue, (t, sizeofThreadTask) ∈ s'.fs.heap.live

/-- Only a thread that has been created or forked itself comes to `sys_fork`: `main` leaves the block of
`sched_init` for the first of them, before any runs in user mode, and that block never becomes a zombie. -/
inductive Step (k : ForkSymbols) (s : Threads) : Threads → Prop
  | create {s' : Threads} {r : Option ℕ} (callback : BitVec 64)
      (h : threadCreate k.toSymbols s callback = some (s', r)) : Step k s s'
  | fork (e : Entry) (h : s.current ∈ s.threads) : Step k s (sysFork k s e).1
  | reap (t : ℕ) (hmem : t ∈ s.threads) (hqueue : t ∉ s.readyQueue) : Step k s (s.reap t)
  | other {s' : Threads} (h : Other s s') : Step k s s'

structure Threads.Initial (s : Threads) : Prop where
  heap : s.fs.heap.Ok
  threads : s.threads = []
  queue : s.readyQueue = []
  threadCnt : s.threadCnt = 0

def Threads.Reachable (k : ForkSymbols) (s : Threads) : Prop :=
  ∃ s₀ : Threads, s₀.Initial ∧ ReflTransGen (Step k) s₀ s

structure Threads.Inv (s : Threads) : Prop where
  heap : s.fs.heap.Ok
  live : ∀ t ∈ s.threads, ∀ b ∈ s.own t, b ∈ s.fs.heap.live
  nodup : (s.threads.flatMap s.own).Nodup
  queue : ∀ t ∈ s.readyQueue, (t, sizeofThreadTask) ∈ s.fs.heap.live

theorem Threads.Initial.inv (h : s.Initial) : s.Inv where
  heap := h.heap
  live t ht := by
    rw [h.threads] at ht
    exact absurd ht List.not_mem_nil
  nodup := by
    rw [h.threads]
    exact List.nodup_nil
  queue t ht := by
    rw [h.queue] at ht
    exact absurd ht List.not_mem_nil

/-- What leaves the threads their blocks keeps the invariant. -/
theorem Threads.Inv.keeps (h : s.Inv) (hok : s'.fs.heap.Ok) (hthreads : s'.threads = s.threads)
    (hown : ∀ t ∈ s.threads, s'.own t = s.own t)
    (hlive : ∀ t ∈ s.threads, ∀ b ∈ s.own t, b ∈ s'.fs.heap.live)
    (hqueue : ∀ t ∈ s'.readyQueue, (t, sizeofThreadTask) ∈ s'.fs.heap.live) : s'.Inv where
  heap := hok
  live t ht b hb := by
    rw [hthreads] at ht
    rw [hown t ht] at hb
    exact hlive t ht b hb
  nodup := by
    rw [hthreads, List.flatMap_congr hown]
    exact h.nodup
  queue := hqueue

theorem Other.inv (h : Other s s') (hinv : s.Inv) : s'.Inv :=
  hinv.keeps h.heap h.threads h.own h.live h.queue

namespace Threads.Inv

theorem task_live (h : s.Inv) (ht : t ∈ s.threads) : (t, sizeofThreadTask) ∈ s.fs.heap.live :=
  h.live t ht _ (by simp [own])

theorem kernelStack_live (h : s.Inv) (ht : t ∈ s.threads) :
    ((s.blocks t).kernelStack, threadStackSize) ∈ s.fs.heap.live :=
  h.live t ht _ (by simp [own])

theorem userStack_live (h : s.Inv) (ht : t ∈ s.threads) :
    ((s.blocks t).userStack, threadStackSize) ∈ s.fs.heap.live :=
  h.live t ht _ (by simp [own])

theorem kept (h : s.Inv) (hk : Kept s s') : s'.Inv := by
  refine h.keeps hk.extend.ok hk.threads (fun t ht => ?_) (fun t ht b hb => ?_) fun t ht => ?_
  · rw [own, own, hk.blocks _ (h.task_live ht)]
  · exact hk.extend.mem_live (h.live t ht b hb)
  · rw [hk.queue] at ht
    exact hk.extend.mem_live (h.queue t ht)

theorem mem_reap : b ∈ (s.reap t).fs.heap.live ↔ b ∈ s.fs.heap.live ∧ ∀ c ∈ s.own t, b.1 ≠ c.1 := by
  change b ∈ (((s.fs.heap.free _).free _).free t).live ↔ _
  simp only [Vfs.Heap.mem_free, own, List.forall_mem_cons]
  tauto

/-- Different threads have different blocks, which start at different addresses. -/
theorem start_ne (h : s.Inv) (ht : t ∈ s.threads) (hu : u ∈ s.threads) (hne : u ≠ t) (hb : b ∈ s.own u)
    {c : ℕ × ℕ} (hc : c ∈ s.own t) : b.1 ≠ c.1 := by
  intro heq
  obtain rfl := h.heap.eq_of_start (h.live u hu b hb) (h.live t ht c hc) heq
  have hpair := (List.nodup_flatMap.1 h.nodup).2
  have hsymm : Std.Symm (Function.onFun List.Disjoint s.own) := ⟨fun _ _ hd => hd.symm⟩
  exact hpair.forall hu ht hne hb hc

theorem reap (h : s.Inv) (ht : t ∈ s.threads) (hqueue : t ∉ s.readyQueue) : (s.reap t).Inv where
  heap := ((h.heap.free _).free _).free _
  live u hu b hb := by
    obtain ⟨hu, hne⟩ := List.mem_filter.1 hu
    exact mem_reap.2 ⟨h.live u hu b hb, fun c hc => h.start_ne ht hu (by simpa using hne) hb hc⟩
  nodup := h.nodup.sublist (List.filter_sublist.flatMap _)
  queue u hu := by
    refine mem_reap.2 ⟨h.queue u hu, fun c hc heq => ?_⟩
    have hstart := h.heap.eq_of_start (h.queue u hu) (h.live t ht c hc) heq
    have hsize : threadStackSize ≠ sizeofThreadTask := by decide
    rw [own] at hc
    subst hstart
    simp only [List.mem_cons, Prod.mk.injEq, List.not_mem_nil, or_false] at hc
    rcases hc with ⟨-, h2⟩ | ⟨-, h2⟩ | ⟨rfl, -⟩
    · exact hsize h2.symm
    · exact hsize h2.symm
    · exact hqueue hu

end Threads.Inv

structure Added (s s' : Threads) (c : ℕ) : Prop where
  heap : s'.fs.heap.Ok
  live : ∃ bs, s'.fs.heap.live = bs ++ (newOwn s.fs ++ s.fs.heap.live)
  own : s'.own c = newOwn s.fs
  other : ∀ t, t ≠ c → ∃ n, s'.blocks t = { s.blocks t with next := n }
  threads : s'.threads = c :: s.threads
  queue : s'.readyQueue = s.readyQueue ++ [c]

theorem Forked.added (h : Forked k s e s' c) : Added s s' c where
  heap := by
    rw [h.heap]
    exact h.extend.ok
  live := by
    rw [h.heap]
    exact ⟨[], h.extend.live⟩
  own := by
    rw [Threads.own, h.child, newOwn, h.block_eq]
    rfl
  other := h.other
  threads := h.threads
  queue := h.queue

theorem Threads.Inv.added (h : s.Inv) (ha : Added s s' c) : s'.Inv := by
  obtain ⟨bs, hlive⟩ := ha.live
  have hnodup := ha.heap.nodup
  rw [hlive, ← ha.own] at hnodup
  obtain ⟨hnew, -, hfresh⟩ := List.nodup_append.1 (List.nodup_append.1 hnodup).2.1
  have hold : ∀ b ∈ s.fs.heap.live, b ∈ s'.fs.heap.live := by
    intro b hb
    rw [hlive]
    exact List.mem_append_right _ (List.mem_append_right _ hb)
  have hown : ∀ b ∈ s'.own c, b ∈ s'.fs.heap.live := by
    intro b hb
    rw [hlive, ← ha.own]
    exact List.mem_append_right _ (List.mem_append_left _ hb)
  have hsame : ∀ t ∈ s.threads, s'.own t = s.own t := by
    intro t ht
    have hne : t ≠ c := by
      rintro rfl
      exact hfresh _ (by simp [own]) _ (h.task_live ht) rfl
    obtain ⟨n, hn⟩ := ha.other t hne
    rw [own, own, hn]
  refine ⟨ha.heap, fun t ht b hb => ?_, ?_, fun t ht => ?_⟩
  · rw [ha.threads] at ht
    rcases List.mem_cons.1 ht with rfl | ht
    · exact hown b hb
    · rw [hsame t ht] at hb
      exact hold b (h.live t ht b hb)
  · rw [ha.threads, List.flatMap_cons, List.flatMap_congr hsame]
    refine List.nodup_append.2 ⟨hnew, h.nodup, ?_⟩
    rintro b hb b' hb' rfl
    obtain ⟨t, ht, hbt⟩ := List.mem_flatMap.1 hb'
    exact hfresh b hb b (h.live t ht b hbt) rfl
  · rw [ha.queue] at ht
    rcases List.mem_append.1 ht with ht | ht
    · exact hold _ (h.queue t ht)
    · rw [List.mem_singleton.1 ht]
      exact hown _ (by simp [own])

/-- A thread that is put into the ready queue, from a state in which it has its stacks. -/
theorem Added.of_stacks {s₁ : Threads} (hok : s₁.fs.heap.Ok)
    (hlive : ∃ bs, s₁.fs.heap.live = bs ++ (newOwn s.fs ++ s.fs.heap.live)) (hown : s₁.own c = newOwn s.fs)
    (hother : ∀ u, u ≠ c → s₁.blocks u = s.blocks u) (hthreads : s₁.threads = s.threads)
    (hqueue : s₁.readyQueue = s.readyQueue) (hc : c ∉ s.readyQueue) :
    Added s { s₁.addThreadTask c with threads := c :: s₁.threads } c := by
  obtain ⟨hfs, -, -, -, hready⟩ := s₁.addThreadTask_fields c
  refine ⟨?_, ?_, ?_, fun u hu => ?_, congrArg (c :: ·) hthreads, ?_⟩
  · rwa [hfs]
  · rwa [hfs]
  · rw [← hown]
    change [(((s₁.addThreadTask c).blocks c).userStack, _), (((s₁.addThreadTask c).blocks c).kernelStack, _),
      _] = _
    rw [s₁.addThreadTask_self (hqueue ▸ hc)]
    rfl
  · rw [← hother u hu]
    exact s₁.addThreadTask_other hu
  · rw [← hqueue]
    exact hready

theorem newBlock_ne (hext : Extends s.fs (Vfs.beforeFrame s.fs) (newOwn s.fs)) {n : ℕ}
    (hlive : (t, n) ∈ s.fs.heap.live) : t ≠ newBlock s.fs :=
  hext.fresh (n := sizeofThreadTask) (by simp [newOwn]) (t, n) hlive

/-- What `thread_create` leaves. -/
theorem threadCreate_cases {y : Symbols} {callback : BitVec 64} {r : Option ℕ} (hinv : s.Inv)
    (h : threadCreate y s callback = some (s', r)) : Kept s s' ∨ ∃ c, r = some c ∧ Added s s' c := by
  rw [threadCreate] at h
  rcases s.takeBlocks_cases startTask hinv.heap with ⟨s₁, heq, hkept⟩ | ⟨heq, hext⟩
  · rw [heq] at h
    obtain ⟨rfl, -⟩ := Prod.mk.inj (Option.some.inj h)
    exact Or.inl hkept
  rw [heq] at h
  obtain ⟨s₃, hprepare, h⟩ := Option.map_eq_some_iff.1 h
  obtain ⟨rfl, rfl⟩ := Prod.mk.inj h
  refine Or.inr ⟨_, rfl, ?_⟩
  have hself := s.withStacks_self startTask
  have hother : ∀ u, u ≠ newBlock s.fs → (s.withStacks startTask).blocks u = s.blocks u :=
    fun u hu => s.withStacks_of_ne _ hu
  obtain ⟨hfs, hthreads, hready, -⟩ := s.withStacks_fields startTask
  have hc : newBlock s.fs ∉ s.readyQueue := fun hmem => newBlock_ne hext (hinv.queue _ hmem) rfl
  have hkernel := congrArg ThreadTask.kernelStack hself
  have huser := congrArg ThreadTask.userStack hself
  dsimp only at hkernel huser
  rw [← hfs] at hext
  have hnew : newOwn s.fs = [(newUserStack s.fs, threadStackSize), (newKernelStack s.fs, threadStackSize),
      (newBlock s.fs, sizeofThreadTask)] := rfl
  generalize newBlock s.fs = c at *
  generalize s.withStacks startTask = w at *
  rw [threadPrepare] at hprepare
  obtain ⟨⟨fs, files⟩, hfiles, hprepare⟩ := Option.bind_eq_some_iff.1 hprepare
  obtain rfl := Option.some.inj hprepare
  obtain ⟨bs₁, hext₁⟩ : ∃ bs, Extends w.fs (w.fs.alloc sizeofTrapFrame).1 bs := by
    rcases Vfs.State.alloc_cases hext.ok (n := sizeofTrapFrame) (by decide) with
      ⟨st₁, heq, hext⟩ | ⟨st₁, p, heq, -, -, hext, -⟩
    · exact ⟨_, by rw [heq]; exact hext⟩
    · exact ⟨_, by rw [heq]; exact hext⟩
  obtain ⟨bs₂, hext₂⟩ := Vfs.openStdFiles_extends hext₁.ok hfiles
  have hlast := hext₁.trans hext₂
  refine Added.of_stacks hlast.ok ⟨bs₂ ++ bs₁, ?_⟩ ?_ (fun u hu => ?_) hthreads hready hc
  · rw [← hext.live]
    exact hlast.live
  · simp only [Threads.own, Threads.setBlock_self, hnew, ← hkernel, ← huser]
  · simp only [Threads.setBlock_of_ne _ _ hu]
    exact hother u hu

/-- `sys_fork` has found no memory or has made a child. -/
theorem sysFork_cases (hinv : s.Inv) (hcur : s.current ∈ s.threads) :
    (∃ s', sysFork k s e = (s', none) ∧ s'.Inv) ∨
      ∃ s' c, sysFork k s e = (s', some c) ∧ Forked k s e s' c := by
  have hlive := hinv.task_live hcur
  have hpos : s.current ≠ 0 := (hinv.heap.start_pos _ hlive).ne'
  rcases s.takeBlocks_cases (startChild s.running) hinv.heap with ⟨s₁, heq, hkept⟩ | ⟨heq, hext⟩
  · refine Or.inl ⟨s₁.setX0 e (2 ^ 64 - 1), ?_, ?_⟩
    · rw [sysFork, if_neg hpos, heq]
    · have h₁ := hinv.kept hkept
      exact h₁.keeps h₁.heap rfl (fun _ _ => rfl) h₁.live h₁.queue
  · have hsome : sysFork k s e = ((sysFork k s e).1, some (newBlock s.fs)) := by
      rw [sysFork, if_neg hpos, heq]
      rfl
    exact Or.inr ⟨_, _, hsome, sysFork_forked hinv.heap (newBlock_ne hext hlive)
      (fun hmem => newBlock_ne hext (hinv.queue _ hmem) rfl) hsome⟩

theorem Threads.Inv.forked (hinv : s.Inv) (hcur : s.current ∈ s.threads) (h : sysFork k s e = (s', some c)) :
    Forked k s e s' c := by
  rcases sysFork_cases (k := k) (e := e) hinv hcur with ⟨s₁, heq, -⟩ | ⟨s₁, c₁, heq, hforked⟩
  · rw [heq] at h
    cases h
  · rw [heq] at h
    obtain ⟨rfl, hc⟩ := Prod.mk.inj h
    obtain rfl := Option.some.inj hc
    exact hforked

theorem inv_stable : Stable (Step k) Threads.Inv := by
  intro s s' hinv hstep
  cases hstep with
  | create callback h =>
      rcases threadCreate_cases hinv h with hkept | ⟨c, -, hadded⟩
      · exact hinv.kept hkept
      · exact hinv.added hadded
  | fork e hcur =>
      rcases sysFork_cases (k := k) (e := e) hinv hcur with ⟨s₁, heq, hinv₁⟩ | ⟨s₁, c, heq, hforked⟩
      · rwa [heq]
      · rw [heq]
        exact hinv.added hforked.added
  | reap t hmem hqueue => exact hinv.reap hmem hqueue
  | other h => exact h.inv hinv

theorem Threads.Reachable.inv (h : s.Reachable k) : s.Inv := by
  obtain ⟨s₀, h0, hrun⟩ := h
  exact inv_stable.run h0.inv hrun

end OscKernel.Proc
