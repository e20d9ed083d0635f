import OscKernel.NodeLists
import OscKernel.TimerList

/-!
# Runs of the timers

When no message is longer than the room behind its field, every step of a run keeps that the list holds
exactly the timers that are pending, each in its own block of the heap, and that a timer that has fired
has been freed or is in its callback.
-/

namespace OscKernel.Timer

open ByteOrder Linked Relation Runs
open Vfs (Heap)

variable {s s' s₀ : State} {f : Frame} {rest : List Frame} {l : List ℕ} {a i j currTick : ℕ} {t : Added}

def State.running (s : State) : List ℕ := s.frames.filterMap Frame.curr

structure Holds (m : ByteMem) (a : ℕ) (t : Added) : Prop where
  node : t.node = a
  callback : callback m a = t.callback.toNat
  expiration : expiration m a = t.due

def State.Pending (s : State) (i : ℕ) (t : Added) : Prop :=
  s.added[i]? = some t ∧ ∀ r ∈ s.fired, r.timer ≠ i

def Punctual (added : List Added) (r : Fired) : Prop :=
  ∃ t, added[r.timer]? = some t ∧ t.due ≤ r.currTick ∧ r.callback = t.callback.toNat

structure Inv (s : State) (l : List ℕ) : Prop where
  list : TimerList s.mem s.timerHead l
  heap : s.heap.Ok
  live : ∀ a ∈ l ++ s.running, (a, nodeSize) ∈ s.heap.live
  nodup : (l ++ s.running).Nodup
  holds : ∀ a ∈ l, ∃ t, s.added[s.owner a]? = some t ∧ Holds s.mem a t
  running : ∀ a ∈ s.running, ∃ t, s.added[s.owner a]? = some t ∧ t.node = a
  once : (l.map s.owner ++ s.fired.map Fired.timer).Perm (List.range s.added.length)
  freed : (s.fired.map Fired.timer).Perm (s.freed ++ s.running.map s.owner)
  punctual : ∀ r ∈ s.fired, Punctual s.added r

theorem Inv.initial (h : s.Initial) : Inv s [] := by
  have hrun : s.running = [] := by rw [State.running, h.frames]; rfl
  refine ⟨?_, h.heap, ?_, ?_, by simp, ?_, ?_, ?_, ?_⟩
  · rw [h.timerHead]
    exact ⟨rfl, List.Pairwise.nil, List.Pairwise.nil, by simp⟩
  · simp [hrun]
  · simp [hrun]
  · simp [hrun]
  · simp [h.fired, h.added]
  · simp [h.fired, h.freed, hrun]
  · simp [h.fired]

theorem Inv.placed (h : Inv s l) : NodeLists.Placed layout s.mem s.heap s.timerHead l s.running :=
  ⟨timerList_iff.1 h.list, h.heap, h.live, h.nodup⟩

/-- A timer's entry stays when another is appended. -/
theorem added_append {added : List Added} (h : added[i]? = some t) (u : Added) :
    (added ++ [u])[i]? = some t := by
  rw [List.getElem?_append_left (List.getElem?_eq_some_iff.1 h).1]
  exact h

theorem Inv.add (h : Inv s l) (c : UInt64) {msg : List UInt8} {tick : ℕ}
    (hlt : currTick + tick < 2 ^ 64) (halloc : (s.heap.alloc nodeSize).2 ≠ 0) (hfit : Fits msg) :
    ∃ l', Inv (addTimer s c msg tick currTick) l' := by
  rw [addTimer, if_neg halloc]
  simp only [Nat.mod_eq_of_lt hlt]
  generalize hnode : (s.heap.alloc nodeSize).2 = node at halloc ⊢
  set m := fillNode s.mem node c msg (currTick + tick) with hm
  have hfresh : NodeLists.Fresh layout s.mem s.heap l s.running (s.heap.alloc nodeSize).1 node m :=
    h.placed.fresh (by decide) (Prod.ext rfl hnode) halloc fun x hx => fillNode_outside hfit hx
  have hap : ∀ a ∈ l, NodesApart node a := hfresh.apart
  have howner : ∀ a ∈ l ++ s.running, Function.update s.owner node s.added.length a = s.owner a := by
    rintro a ha
    refine Function.update_of_ne ?_ _ _
    rintro rfl
    exact hfresh.new ha
  have hlist : TimerList m s.timerHead l := h.list.congr fun a ha => fillNode_sameNode hfit (hap a ha).symm
  have hlink := link_spec hlist hfresh.bounds hap h.placed.length_le
  have hperm := List.perm_orderedInsert (Sooner m) node l
  obtain ⟨hcallback, hdue⟩ := fillNode_fields s.mem node c msg hlt
  refine ⟨l.orderedInsert (Sooner m) node, hlink.list, hfresh.heap, ?_, ?_, ?_, ?_, ?_, ?_, ?_⟩
  · intro a ha
    simp only [hfresh.live]
    rcases List.mem_cons.1 ((hperm.append_right _).mem_iff.1 ha) with rfl | ha
    · exact List.mem_cons_self
    · exact List.mem_cons_of_mem _ (h.live a ha)
  · exact (hperm.append_right _).nodup_iff.2 (List.nodup_cons.2 ⟨hfresh.new, h.nodup⟩)
  · intro a ha
    have ha' := hperm.mem_iff.1 ha
    rcases List.mem_cons.1 ha' with rfl | hold
    · refine ⟨⟨a, c, currTick + tick⟩, ?_, rfl, ?_, ?_⟩
      · simp only [Function.update_self]
        exact List.getElem?_concat_length
      · rw [hlink.callback a ha', hcallback]
      · rw [hlink.expiration a ha', hdue]
    · obtain ⟨t, ht, hholds⟩ := h.holds a hold
      have hsame : SameNode s.mem m a := fillNode_sameNode hfit (hap a hold).symm
      refine ⟨t, ?_, hholds.node, ?_, ?_⟩
      · simp only [howner a (List.mem_append_left _ hold)]
        exact added_append ht _
      · rw [hlink.callback a ha', hsame.callback, hholds.callback]
      · rw [hlink.expiration a ha', hsame.expiration, hholds.expiration]
  · intro a ha
    obtain ⟨t, ht, hnode⟩ := h.running a ha
    refine ⟨t, ?_, hnode⟩
    simp only [howner a (List.mem_append_right _ ha)]
    exact added_append ht _
  · simp only [List.length_append, List.length_singleton, List.range_succ]
    have hmap : l.map (Function.update s.owner node s.added.length) = l.map s.owner :=
      List.map_congr_left fun a ha => howner a (List.mem_append_left _ ha)
    refine ((hperm.map _).append_right _).trans ?_
    rw [List.map_cons, Function.update_self, hmap]
    exact (h.once.cons _).trans (List.perm_append_singleton _ _).symm
  · have hmap : s.running.map (Function.update s.owner node s.added.length) = s.running.map s.owner :=
      List.map_congr_left fun a ha => howner a (List.mem_append_right _ ha)
    change (s.fired.map Fired.timer).Perm (s.freed ++ s.running.map _)
    rw [hmap]
    exact h.freed
  · intro r hr
    obtain ⟨t, ht, hrest⟩ := h.punctual r hr
    exact ⟨t, added_append ht _, hrest⟩

/-- A run that is in no callback does not count among the running nodes. -/
theorem running_of_none (hframes : s.frames = f :: rest) (hcurr : f.curr = none) :
    s.running = rest.filterMap Frame.curr := by
  rw [State.running, hframes, List.filterMap_cons_none hcurr]

theorem running_of_some (hframes : s.frames = f :: rest) (hcurr : f.curr = some a) :
    s.running = a :: rest.filterMap Frame.curr := by
  rw [State.running, hframes, List.filterMap_cons_some hcurr]

/-- Taking the first node off touches no field of the others but `prev`. -/
theorem sameNode_setPrev (m : ByteMem) {b v : ℕ} (h : NodesFit a b) : SameNode m (setPrev m b v) a :=
  ⟨next_setPrev h, callback_setPrev h, expiration_setPrev h⟩

theorem unlink_sameNode (h : Inv s l) (hhead : s.timerHead ≠ 0) (ha : a ∈ l) :
    SameNode s.mem (if next s.mem s.timerHead ≠ 0 then setPrev s.mem (next s.mem s.timerHead) 0
      else s.mem) a := by
  obtain ⟨t, rfl⟩ := h.list.exists_cons hhead
  by_cases hnext : next s.mem s.timerHead ≠ 0
  · rw [if_pos hnext]
    obtain ⟨t', rfl⟩ := h.list.tail.exists_cons hnext
    exact sameNode_setPrev s.mem (h.list.fit ha (List.mem_cons_of_mem _ List.mem_cons_self))
  · rw [if_neg hnext]
    exact ⟨rfl, rfl, rfl⟩

/-- The first node goes from the list to the running nodes, and its timer has fired. -/
theorem Inv.fire {m : ByteMem} (h : Inv s l) (hframes : s.frames = f :: rest) (hcurr : f.curr = none)
    (hexp : Expired s f) (hsame : ∀ a ∈ l, SameNode s.mem m a) :
    Inv { s with
      mem := m
      timerHead := next s.mem s.timerHead
      frames := ⟨f.currTick, true, some s.timerHead⟩ :: rest
      fired := s.fired ++ [⟨s.owner s.timerHead, f.currTick, callback m s.timerHead⟩] } l.tail := by
  have hrunning := running_of_none hframes hcurr
  obtain ⟨l', rfl⟩ := h.list.exists_cons hexp.1
  obtain ⟨t, ht, hholds⟩ := h.holds s.timerHead List.mem_cons_self
  have hmove : (l' ++ s.timerHead :: rest.filterMap Frame.curr).Perm
      (s.timerHead :: l' ++ s.running) := by
    rw [hrunning]
    exact List.perm_middle
  refine ⟨?_, h.heap, ?_, ?_, ?_, ?_, ?_, ?_, ?_⟩
  · exact h.list.tail.congr fun a ha => hsame a (List.mem_cons_of_mem _ ha)
  · exact fun a ha => h.live a (hmove.mem_iff.1 ha)
  · exact hmove.nodup_iff.2 h.nodup
  · intro a ha
    obtain ⟨t, ht, hholds⟩ := h.holds a (List.mem_cons_of_mem _ ha)
    have hs := hsame a (List.mem_cons_of_mem _ ha)
    exact ⟨t, ht, hholds.node, hs.callback.trans hholds.callback,
      hs.expiration.trans hholds.expiration⟩
  · intro a ha
    rcases List.mem_cons.1 ha with rfl | ha
    · exact ⟨t, ht, hholds.node⟩
    · exact h.running a (by rw [hrunning]; exact ha)
  · refine List.Perm.trans ?_ h.once
    simp only [List.map_append, List.map_cons, List.map_nil, List.tail_cons, List.cons_append]
    rw [← List.append_assoc]
    exact List.perm_append_singleton _ _
  · have hfreed := h.freed
    rw [hrunning] at hfreed
    simp only [List.map_append, List.map_cons, List.map_nil]
    exact (List.perm_append_singleton _ _).trans ((hfreed.cons _).trans List.perm_middle.symm)
  · intro r hr
    rcases List.mem_append.1 hr with hr | hr
    · exact h.punctual r hr
    · rw [List.mem_singleton.1 hr]
      refine ⟨t, ht, ?_, ?_⟩
      · rw [← hholds.expiration]
        exact hexp.2
      · exact (hsame s.timerHead List.mem_cons_self).callback.trans hholds.callback

theorem Inv.finish (h : Inv s l) (hframes : s.frames = f :: rest) (hcurr : f.curr = none)
    (tval : ℕ) (irq needSchedule : Bool) :
    Inv { s with tval := tval, irq := irq, needSchedule := needSchedule, frames := rest } l := by
  have hrunning := running_of_none hframes hcurr
  refine ⟨h.list, h.heap, ?_, ?_, h.holds, ?_, h.once, ?_, h.punctual⟩
  · exact fun a ha => h.live a (by rw [hrunning]; exact ha)
  · have hnodup := h.nodup
    rwa [hrunning] at hnodup
  · exact fun a ha => h.running a (by rw [hrunning]; exact ha)
  · have hfreed := h.freed
    rwa [hrunning] at hfreed

theorem Inv.loop (h : Inv s l) (hframes : s.frames = f :: rest) (hcurr : f.curr = none) :
    ∃ l', Inv (handlerLoop s f rest) l' := by
  by_cases hexp : Expired s f
  · rw [handlerLoop, if_pos hexp]
    exact ⟨l.tail, h.fire hframes hcurr hexp fun a ha => unlink_sameNode h hexp.1 ha⟩
  · rw [handlerLoop, if_neg hexp]
    exact ⟨l, h.finish hframes hcurr _ _ false⟩

theorem Inv.ret (h : Inv s l) (hframes : s.frames = f :: rest) (hcurr : f.curr = some a) :
    Inv (callbackReturn s f rest a) l := by
  have hrunning := running_of_some hframes hcurr
  have hplaced := h.placed
  rw [hrunning] at hplaced
  have hfree := hplaced.free
  refine ⟨h.list, hfree.heap, hfree.live, hfree.nodup, h.holds, ?_, h.once, ?_, h.punctual⟩
  · intro b hb
    exact h.running b (by rw [hrunning]; exact List.mem_cons_of_mem a hb)
  · have hfreed := h.freed
    rw [hrunning, List.map_cons] at hfreed
    change (s.fired.map Fired.timer).Perm
      (s.freed ++ [s.owner a] ++ (rest.filterMap Frame.curr).map s.owner)
    rw [List.append_assoc]
    exact hfreed

theorem inv_stable : Stable (Step Fits) fun s => ∃ l, Inv s l := by
  rintro s s' ⟨l, h⟩ hstep
  cases hstep with
  | add c msg tick currTick _ _ hlt halloc hfit => exact h.add c hlt halloc hfit
  | enter currTick _ _ =>
      exact ⟨l, h.list, h.heap, h.live, h.nodup, h.holds, h.running, h.once, h.freed, h.punctual⟩
  | loop hframes hcurr => exact h.loop hframes hcurr
  | ret hframes hcurr => exact ⟨l, h.ret hframes hcurr⟩
  | keepSchedule _ =>
      exact ⟨l, h.list, h.heap, h.live, h.nodup, h.holds, h.running, h.once, h.freed, h.punctual⟩

theorem Inv.pending_iff (h : Inv s l) : i ∈ l.map s.owner ↔ ∃ t, s.Pending i t := by
  have hnodup := (h.once.nodup_iff.2 List.nodup_range)
  constructor
  · intro hi
    obtain ⟨a, ha, rfl⟩ := List.mem_map.1 hi
    obtain ⟨t, ht, -⟩ := h.holds a ha
    refine ⟨t, ht, fun r hr he => ?_⟩
    exact List.disjoint_of_nodup_append hnodup hi (List.mem_map.2 ⟨r, hr, he⟩)
  · rintro ⟨t, ht, hnot⟩
    have hlt := (List.getElem?_eq_some_iff.1 ht).1
    rcases List.mem_append.1 (h.once.mem_iff.2 (List.mem_range.2 hlt)) with hi | hi
    · exact hi
    · obtain ⟨r, hr, he⟩ := List.mem_map.1 hi
      exact absurd he (hnot r hr)

/-- The node of a pending timer is on the list. -/
theorem Inv.node_of_pending (h : Inv s l) (hi : s.Pending i t) :
    ∃ a ∈ l, s.owner a = i ∧ Holds s.mem a t := by
  obtain ⟨a, ha, rfl⟩ := List.mem_map.1 (h.pending_iff.2 ⟨t, hi⟩)
  obtain ⟨t', ht', hholds⟩ := h.holds a ha
  have heq : t' = t := Option.some.inj (ht'.symm.trans hi.1)
  exact ⟨a, ha, rfl, heq ▸ hholds⟩

/-- The head of the list expires no later than any pending timer. -/
theorem Inv.head_le (h : Inv s l) (hi : s.Pending i t) :
    s.timerHead ≠ 0 ∧ expiration s.mem s.timerHead ≤ t.due := by
  obtain ⟨a, ha, -, hholds⟩ := h.node_of_pending hi
  have hhead : s.timerHead ≠ 0 := fun h0 => by
    rw [h.list.eq_nil_iff.2 h0] at ha
    exact absurd ha List.not_mem_nil
  obtain ⟨l', rfl⟩ := h.list.exists_cons hhead
  refine ⟨hhead, ?_⟩
  rw [← hholds.expiration]
  rcases List.mem_cons.1 ha with rfl | ha
  · exact le_rfl
  · exact (List.pairwise_cons.1 h.list.sorted).1 a ha

def State.ListsPending (s : State) : Prop :=
  ∃ l timers : List ℕ, Chain (nextPtr s.mem) (ptr s.timerHead) l ∧ l.Pairwise (Sooner s.mem) ∧
    List.Forall₂ (fun a i => ∃ t, s.Pending i t ∧ Holds s.mem a t) l timers ∧
    timers.Nodup ∧ ∀ i t, s.Pending i t → i ∈ timers

theorem Inv.listsPending (h : Inv s l) : s.ListsPending := by
  refine ⟨l, l.map s.owner, h.list.chain, h.list.sorted, ?_, ?_, ?_⟩
  · rw [List.forall₂_map_right_iff, List.forall₂_same]
    intro a ha
    obtain ⟨t, ht, hholds⟩ := h.holds a ha
    obtain ⟨t', ht'⟩ := h.pending_iff.1 (List.mem_map_of_mem ha)
    have heq : t' = t := Option.some.inj (ht'.1.symm.trans ht)
    exact ⟨t, heq ▸ ht', hholds⟩
  · exact (List.nodup_append.1 (h.once.nodup_iff.2 List.nodup_range)).1
  · exact fun i t hi => h.pending_iff.2 ⟨t, hi⟩

/-- What one more test of the loop does: it fires a timer that is due and that no pending timer
precedes, or it ends the run and no pending timer is due. -/
def State.LoopFires (s : State) : Prop :=
  ∀ f rest, s.frames = f :: rest → f.curr = none →
    (Expired s f → ∃ i t, s.Pending i t ∧ t.due ≤ f.currTick ∧
      (handlerLoop s f rest).fired = s.fired ++ [⟨i, f.currTick, t.callback.toNat⟩] ∧
      ∀ j t', s.Pending j t' → t.due ≤ t'.due) ∧
    (¬ Expired s f → (handlerLoop s f rest).frames = rest ∧
      ∀ j t, s.Pending j t → f.currTick < t.due)

theorem Inv.loopFires (h : Inv s l) : s.LoopFires := by
  refine fun f rest _ _ => ⟨fun hexp => ?_, fun hexp => ⟨?_, fun j t hj => ?_⟩⟩
  · obtain ⟨l', hl⟩ := h.list.exists_cons hexp.1
    have hmem : s.timerHead ∈ l := hl ▸ List.mem_cons_self
    obtain ⟨t, ht⟩ := h.pending_iff.1 (List.mem_map_of_mem hmem)
    obtain ⟨t', ht', hholds⟩ := h.holds s.timerHead hmem
    have heq : t = t' := Option.some.inj (ht.1.symm.trans ht')
    subst heq
    refine ⟨_, t, ht, hholds.expiration ▸ hexp.2, ?_, fun j t' hj => ?_⟩
    · have hcallback := (unlink_sameNode h hexp.1 hmem).callback.trans hholds.callback
      rw [handlerLoop, if_pos hexp]
      simp only [hcallback]
    · rw [← hholds.expiration]
      exact (h.head_le hj).2
  · rw [handlerLoop, if_neg hexp]
  · obtain ⟨hhead, hle⟩ := h.head_le hj
    by_contra hlt
    exact hexp ⟨hhead, hle.trans (Nat.le_of_not_lt hlt)⟩

/-- A timer that has fired has been freed, once, or its node is still in use and its callback has not
returned. -/
def State.FreesOnce (s : State) : Prop :=
  (s.fired.map Fired.timer).Nodup ∧
    (s.fired.map Fired.timer).Perm (s.freed ++ s.running.map s.owner) ∧
    ∀ a ∈ s.running, (a, nodeSize) ∈ s.heap.live ∧
      ∃ t, s.added[s.owner a]? = some t ∧ t.node = a

theorem Inv.freesOnce (h : Inv s l) : s.FreesOnce :=
  ⟨(List.nodup_append.1 (h.once.nodup_iff.2 List.nodup_range)).2.1, h.freed,
    fun a ha => ⟨h.live a (List.mem_append_right _ ha), h.running a ha⟩⟩

/-- When every message fits its node, timers fire once, in order and never early. -/
theorem timers_fire_once_in_order (h0 : s₀.Initial) (hrun : ReflTransGen (Step Fits) s₀ s) :
    s.ListsPending ∧ (∀ r ∈ s.fired, Punctual s.added r) ∧ s.FreesOnce ∧ s.LoopFires := by
  obtain ⟨l, h⟩ := inv_stable.run ⟨[], Inv.initial h0⟩ hrun
  exact ⟨h.listsPending, h.punctual, h.freesOnce, h.loopFires⟩

def sampleState : State where
  mem := fun _ => 0
  heap := ⟨[], fun n => 4096 - 144 * n, 0⟩
  timerHead := 0
  needSchedule := false
  irq := false
  tval := 0
  clock := 0
  frames := []
  added := []
  owner := fun _ => 0
  fired := []
  freed := []

theorem sampleState_initial : sampleState.Initial :=
  ⟨⟨List.Pairwise.nil, by simp [sampleState], by simp [sampleState]⟩, rfl, rfl, rfl, rfl, rfl⟩

theorem calling_of_frames (h : s.frames = []) : s.Calling := by
  rw [State.Calling, h]
  simp

theorem addTimer_frames (s : State) (c : UInt64) (msg : List UInt8) (tick currTick : ℕ) :
    (addTimer s c msg tick currTick).frames = s.frames := by
  rw [addTimer]
  split_ifs <;> rfl

/-- A timer that is added and fires. -/
theorem timers_fire_once_in_order_sample :
    let s₁ := addTimer sampleState 7 [104, 105] 100 20
    let s := handlerLoop (handlerEnter s₁ 120) ⟨120, false, none⟩ []
    s.fired = [⟨0, 120, 7⟩] ∧
      s.ListsPending ∧ (∀ r ∈ s.fired, Punctual s.added r) ∧ s.FreesOnce ∧ s.LoopFires := by
  intro s₁ s
  have hadd : Step Fits sampleState s₁ :=
    Step.add 7 [104, 105] 100 20 (calling_of_frames rfl) (Nat.zero_le _) (by decide)
      (by decide) (by rw [Fits]; decide)
  have henter : Step Fits s₁ (handlerEnter s₁ 120) :=
    Step.enter 120 (calling_of_frames (addTimer_frames ..)) (by decide)
  have hrun := ((ReflTransGen.single hadd).tail henter).tail (Step.loop rfl rfl)
  exact ⟨by decide, timers_fire_once_in_order sampleState_initial hrun⟩

def overlong : State :=
  addTimer (addTimer sampleState 7 [] 100 0) 7 (List.replicate 144 97) 50 0

theorem overlong_links : overlong.timerHead = 3952 ∧ next overlong.mem 3952 = 4096 ∧
    next overlong.mem 4096 = 0x6161616161616161 := by
  decide +kernel

/-- The list goes on to an address that is no node of a timer. -/
theorem overlong_message_breaks_the_list :
    ReflTransGen (Step fun _ => True) sampleState overlong ∧ ¬ overlong.ListsPending := by
  constructor
  · refine (ReflTransGen.single (Step.add 7 [] 100 0 ?_ ?_ ?_ ?_ trivial)).tail
      (Step.add 7 (List.replicate 144 97) 50 0 ?_ ?_ ?_ ?_ trivial)
    · exact calling_of_frames rfl
    · exact le_rfl
    · decide
    · decide
    · exact calling_of_frames (addTimer_frames ..)
    · exact Nat.le_of_eq (by decide)
    · decide
    · decide
  · rintro ⟨l, timers, hchain, -, hnodes, -⟩
    obtain ⟨hhead, hfirst, hsecond⟩ := overlong_links
    rw [hhead, ptr_of_ne (by decide)] at hchain
    have hupper : 4096 ∈ l := hchain.next_mem hchain.head_mem (congrArg ptr hfirst)
    have hwild : 0x6161616161616161 ∈ l := hchain.next_mem hupper (congrArg ptr hsecond)
    obtain ⟨n, hn, hget⟩ := List.getElem_of_mem hwild
    obtain ⟨t, ⟨ht, -⟩, hholds⟩ := hnodes.get hn (hnodes.length_eq ▸ hn)
    have hmem : t.node ∈ overlong.added.map Added.node :=
      List.mem_map_of_mem (List.mem_of_getElem? ht)
    have hadded : overlong.added.map Added.node = [4096, 3952] := by decide
    rw [hadded, hholds.node, List.get_eq_getElem, hget] at hmem
    revert hmem
    decide

end OscKernel.Timer
