import OscKernel.HandlerStack

/-!
# Nested signals

`check_pending_signals` runs at the end of every exception, also while the task is in a handler. Each delivery
saves the interrupted trap frame in the one save area of the control block. So the handlers that are active
can all return to what they have interrupted exactly when the save area keeps its words as long as a handler
is active: no other handler is entered meanwhile, unless from the very frame that is saved.
-/

namespace OscKernel.Proc

namespace Machine

def post (s : Machine) (task : ℕ) (sig : ℤ) : Machine :=
  if sig < 0 ∨ sig ≥ sigNum then s
  else s.setTask task fun b => { b with pendingSig := b.pendingSig ||| 1#32 <<< sig.toNat }

def clearSignal (s : Machine) (task : ℕ) (sig : Fin sigNum) : Machine :=
  s.setTask task fun b => { b with pendingSig := b.pendingSig &&& ~~~ (1#32 <<< sig.val) }

def checkSignals (k : Symbols) (task : ℕ) (frame : TrapFrame) :
    List (Fin sigNum) → Machine → Machine × Outcome
  | [], s => (s, .returned)
  | sig :: l, s =>
      if (s.blocks task).task.pendingSig.getLsbD sig then
        match handleSignal k (s.clearSignal task sig) task (sig : ℕ) frame with
        | (s, .returned) => checkSignals k task frame l s
        | r => r
      else checkSignals k task frame l s

def checkPendingSignals (k : Symbols) (s : Machine) (task : ℕ) (frame : TrapFrame) : Machine × Outcome :=
  if (s.blocks task).task.pendingSig = 0 then (s, .returned)
  else checkSignals k task frame (List.finRange sigNum) s

def Passes (k : Symbols) (handler : BitVec 64) : Prop := handler = 0 ∨ handler = k.defaultHandler

def Enters (k : Symbols) (b : ThreadTask) : Prop :=
  ∃ i, b.pendingSig.getLsbD i.val ∧ Custom k (b.sigHandlers i) ∧
    ∀ j < i, b.pendingSig.getLsbD j.val → Passes k (b.sigHandlers j)

def saved (s : Machine) (task : ℕ) : TrapFrame := (s.blocks task).area

variable {k : Symbols} {s s' : Machine} {task : ℕ} {frame : TrapFrame} {sig : Fin sigNum}
  {l : List (Fin sigNum)}

theorem Custom.not_passes {handler : BitVec 64} (h : Custom k handler) : ¬ Passes k handler := by
  rintro (h0 | hd)
  · exact h.1 h0
  · exact h.2.1 hd

/-- What `handle_signal` does for a signal depends on its handler. -/
theorem handleSignal_fate (k : Symbols) (s : Machine) (task : ℕ) (sig : Fin sigNum) (frame : TrapFrame) :
    (Passes k ((s.blocks task).task.sigHandlers sig) ∧
        handleSignal k s task (sig : ℕ) frame = (s, .returned)) ∨
      (handleSignal k s task (sig : ℕ) frame).2 = .exited ∨
      (Custom k ((s.blocks task).task.sigHandlers sig) ∧
        ∃ s', Delivers k s task (sig : ℕ) frame s') := by
  by_cases hcustom : Custom k ((s.blocks task).task.sigHandlers sig)
  · exact Or.inr (Or.inr ⟨hcustom, _, delivers_custom hcustom⟩)
  rw [handleSignal_fin]
  by_cases h0 : (s.blocks task).task.sigHandlers sig = 0
  · exact Or.inl ⟨Or.inl h0, if_pos h0⟩
  rw [if_neg h0]
  by_cases hd : (s.blocks task).task.sigHandlers sig = k.defaultHandler
  · exact Or.inl ⟨Or.inr hd, if_pos hd⟩
  rw [if_neg hd]
  have hkill : (s.blocks task).task.sigHandlers sig = k.defaultSigkillHandler := by
    by_contra hne
    exact hcustom ⟨h0, hd, hne⟩
  rw [if_pos hkill]
  exact Or.inr (Or.inl rfl)

theorem getLsbD_clear (p : BitVec 32) {i j : ℕ} (h : j ≠ i) :
    (p &&& ~~~ (1#32 <<< i)).getLsbD j = p.getLsbD j := by
  by_cases hj : j < 32
  · rw [BitVec.getLsbD_and, BitVec.getLsbD_not, BitVec.getLsbD_shiftLeft, BitVec.getLsbD_one]
    simp [hj]
    omega
  · rw [BitVec.getLsbD_of_ge _ _ (by omega), BitVec.getLsbD_of_ge _ _ (by omega)]

/-- Clearing a signal leaves the other signals, the handlers and the save area. -/
theorem clearSignal_spec (s : Machine) (task : ℕ) (sig : Fin sigNum) :
    ((s.clearSignal task sig).blocks task).task.sigHandlers = (s.blocks task).task.sigHandlers ∧
      (∀ j, j ≠ sig → ((s.clearSignal task sig).blocks task).task.pendingSig.getLsbD j.val =
        (s.blocks task).task.pendingSig.getLsbD j.val) ∧
      (s.clearSignal task sig).saved task = s.saved task := by
  have hblock : (s.clearSignal task sig).blocks task =
      { s.blocks task with
        task :=
          { (s.blocks task).task with
            pendingSig := (s.blocks task).task.pendingSig &&& ~~~ (1#32 <<< sig.val) } } :=
    Function.update_self ..
  refine ⟨?_, fun j hj => ?_, ?_⟩
  · rw [hblock]
  · rw [hblock]
    exact getLsbD_clear _ fun h => hj (Fin.ext h)
  · rw [saved, hblock]
    rfl

/-- What the loop leaves, for a list of signals in which a custom handler comes first or none does. -/
inductive Checked (k : Symbols) (s : Machine) (task : ℕ) (frame : TrapFrame) (l : List (Fin sigNum)) :
    Machine × Outcome → Prop
  | returned {s' : Machine} (hcur : s'.current = s.current) (hsaved : s'.saved task = s.saved task)
      (hpass : ∀ i ∈ l, (s.blocks task).task.pendingSig.getLsbD i.val →
        Passes k ((s.blocks task).task.sigHandlers i)) : Checked k s task frame l (s', .returned)
  | exited {s' : Machine} : Checked k s task frame l (s', .exited)
  | entered {s' : Machine} {u : UserEntry} (hcur : s'.current = s.current) (hsaved : s'.saved task = frame)
      (l₁ l₂ : List (Fin sigNum)) (i : Fin sigNum) (hl : l = l₁ ++ i :: l₂)
      (hpending : (s.blocks task).task.pendingSig.getLsbD i.val)
      (hcustom : Custom k ((s.blocks task).task.sigHandlers i))
      (hpass : ∀ j ∈ l₁, (s.blocks task).task.pendingSig.getLsbD j.val →
        Passes k ((s.blocks task).task.sigHandlers j)) : Checked k s task frame l (s', .entered u)

/-- One signal more in front, for which the loop goes on, with what its round leaves of the machine. -/
theorem Checked.cons {r : Machine × Outcome} (h : Checked k s' task frame l r) (hnot : sig ∉ l)
    (hcur : s'.current = s.current) (hsaved : s'.saved task = s.saved task)
    (hhandlers : (s'.blocks task).task.sigHandlers = (s.blocks task).task.sigHandlers)
    (hbits : ∀ j, j ≠ sig → (s'.blocks task).task.pendingSig.getLsbD j.val =
      (s.blocks task).task.pendingSig.getLsbD j.val)
    (hfirst : (s.blocks task).task.pendingSig.getLsbD sig.val →
      Passes k ((s.blocks task).task.sigHandlers sig)) : Checked k s task frame (sig :: l) r := by
  have hcons : ∀ {l₁ : List (Fin sigNum)}, (∀ i ∈ l₁, i ∈ l) →
      (∀ i ∈ l₁, (s'.blocks task).task.pendingSig.getLsbD i.val →
        Passes k ((s'.blocks task).task.sigHandlers i)) →
      ∀ i ∈ sig :: l₁, (s.blocks task).task.pendingSig.getLsbD i.val →
        Passes k ((s.blocks task).task.sigHandlers i) := by
    intro l₁ hsub hpass i hi hpending
    rcases List.mem_cons.1 hi with rfl | hi
    · exact hfirst hpending
    · rw [← hhandlers]
      refine hpass i hi ?_
      rwa [hbits i (ne_of_mem_of_not_mem (hsub i hi) hnot)]
  cases h with
  | returned hcur' hsaved' hpass =>
      exact .returned (hcur'.trans hcur) (hsaved'.trans hsaved) (hcons (fun i hi => hi) hpass)
  | exited => exact .exited
  | entered hcur' hsaved' l₁ l₂ i hl hpending hcustom hpass =>
      have hi : i ∈ l := hl ▸ List.mem_append_right l₁ List.mem_cons_self
      rw [hhandlers] at hcustom
      rw [hbits i (ne_of_mem_of_not_mem hi hnot)] at hpending
      have hsub : ∀ j ∈ l₁, j ∈ l := fun j hj => hl ▸ List.mem_append_left _ hj
      exact .entered (hcur'.trans hcur) hsaved' (sig :: l₁) l₂ i (congrArg (sig :: ·) hl) hpending hcustom
        (hcons hsub hpass)

theorem Delivers.current {s' : Machine} {n : ℤ} (h : Delivers k s task n frame s') :
    s'.current = s.current := by
  obtain ⟨handler, rfl⟩ := h.enters
  rfl

theorem checkSignals_checked (k : Symbols) (task : ℕ) (frame : TrapFrame) (hl : l.Nodup) (s : Machine) :
    Checked k s task frame l (checkSignals k task frame l s) := by
  induction l generalizing s with
  | nil => exact .returned rfl rfl fun i hi => absurd hi List.not_mem_nil
  | cons sig l ih =>
      obtain ⟨hnot, hl⟩ := List.nodup_cons.1 hl
      rw [checkSignals]
      by_cases hpending : (s.blocks task).task.pendingSig.getLsbD sig.val
      swap
      · rw [if_neg hpending]
        exact (ih hl s).cons hnot rfl rfl rfl (fun _ _ => rfl) fun h => absurd h hpending
      rw [if_pos hpending]
      obtain ⟨hhandlers, hbits, hsaved⟩ := clearSignal_spec s task sig
      rcases handleSignal_fate k (s.clearSignal task sig) task sig frame with
        ⟨hpass, heq⟩ | hexited | ⟨hcustom, s', u, heq⟩
      · rw [heq]
        rw [hhandlers] at hpass
        exact (ih hl _).cons hnot rfl hsaved hhandlers hbits fun _ => hpass
      · generalize handleSignal k (s.clearSignal task sig) task (sig : ℕ) frame = r at hexited ⊢
        obtain ⟨s', o⟩ := r
        obtain rfl : o = .exited := hexited
        exact .exited
      · have hdel : Delivers k (s.clearSignal task sig) task (sig : ℕ) frame s' := ⟨u, heq⟩
        rw [heq]
        rw [hhandlers] at hcustom
        exact .entered hdel.current hdel.spec.1 [] l sig rfl hpending hcustom
          fun j hj => absurd hj List.not_mem_nil

/-- What `check_pending_signals` leaves. -/
theorem checkPendingSignals_cases (k : Symbols) (s : Machine) (task : ℕ) (frame : TrapFrame) :
    (∃ s', s.checkPendingSignals k task frame = (s', .returned) ∧ s'.current = s.current ∧
      s'.saved task = s.saved task ∧ ¬ Enters k (s.blocks task).task) ∨
    (∃ s', s.checkPendingSignals k task frame = (s', .exited)) ∨
    ∃ s' u, s.checkPendingSignals k task frame = (s', .entered u) ∧ s'.current = s.current ∧
      s'.saved task = frame ∧ Enters k (s.blocks task).task := by
  rw [checkPendingSignals]
  by_cases h0 : (s.blocks task).task.pendingSig = 0
  · rw [if_pos h0]
    refine Or.inl ⟨s, rfl, rfl, rfl, ?_⟩
    rintro ⟨i, hpending, -⟩
    rw [h0] at hpending
    simp at hpending
  rw [if_neg h0]
  have hchecked := checkSignals_checked k task frame (List.nodup_finRange sigNum) s
  generalize checkSignals k task frame (List.finRange sigNum) s = r at hchecked ⊢
  cases hchecked with
  | returned hcur hsaved hpass =>
      refine Or.inl ⟨_, rfl, hcur, hsaved, ?_⟩
      rintro ⟨i, hpending, hcustom, -⟩
      exact hcustom.not_passes (hpass i (List.mem_finRange i) hpending)
  | exited => exact Or.inr (Or.inl ⟨_, rfl⟩)
  | entered hcur hsaved l₁ l₂ i hl hpending hcustom hpass =>
      refine Or.inr (Or.inr ⟨_, _, rfl, hcur, hsaved, i, hpending, hcustom, fun j hj => ?_⟩)
      exact hpass j (Vfs.mem_of_finRange_split hl hj)

end Machine

open Machine (saved Enters)

/-- What happens to a task: a signal is posted to it, it enters the kernel by an interrupt or a call, which
does its work and leaves the trap frame to go on from, or it calls `sys_sigreturn` at the end of a handler. -/
inductive Event where
  | post (sig : ℤ)
  | exception (work : Machine → Machine) (frame : TrapFrame)
  | sigreturn

/-- A machine whose current task has handlers running: `active` are the trap frames that they have
interrupted, the last one first. -/
structure Nest where
  machine : Machine
  active : List TrapFrame

namespace Nest

def task (n : Nest) : ℕ := n.machine.current

/-- `check_pending_signals`, at the end of an exception that leaves the trap frame `frame`. There is no state
after the exit of the task. -/
def check (k : Symbols) (s : Machine) (active : List TrapFrame) (frame : TrapFrame) : Option Nest :=
  match s.checkPendingSignals k s.current frame with
  | (s, .returned) => some ⟨s, active⟩
  | (_, .exited) => none
  | (s, .entered _) => some ⟨s, frame :: active⟩

def worked (n : Nest) (work : Machine → Machine) : Machine :=
  { work n.machine with current := n.task }

def step (k : Symbols) (n : Nest) : Event → Option Nest
  | .post sig => some { n with machine := n.machine.post n.task sig }
  | .exception work frame => check k (n.worked work) n.active frame
  | .sigreturn =>
      match n.machine.sysSigreturn with
      | (_, none) => none
      | (s, some (_, frame)) => check k s n.active.tail frame

def run (k : Symbols) (n : Nest) (l : List Event) : Option Nest := l.foldlM (step k) n

def returned (n : Nest) (i : ℕ) : Machine := (fun s => s.sysSigreturn.1)^[i] n.machine

/-- If the handlers that are active end one after the other, each return resumes what its handler has
interrupted, and the last one what the task did before the first signal. -/
def Unwinds (n : Nest) : Prop :=
  ∀ i f, n.active[i]? = some f → ∃ s addr, (n.returned i).sysSigreturn = (s, some (addr, f))

/-- While a handler is active, an exception leaves the save area as it is: its work does, unless it ends with
another handler that is entered from the very frame that is saved. -/
def Spares (k : Symbols) (n : Nest) : Event → Prop
  | .exception work frame =>
      n.active ≠ [] →
        (Enters k ((n.worked work).blocks n.task).task → frame = n.machine.saved n.task) ∧
          (¬ Enters k ((n.worked work).blocks n.task).task →
            (n.worked work).saved n.task = n.machine.saved n.task)
  | _ => True

variable {k : Symbols} {n n' n₀ : Nest} {s : Machine} {e : Event} {l : List Event} {f frame : TrapFrame}
  {active : List TrapFrame}

/-- A return leaves the control blocks and the current task. -/
theorem returned_spec (n : Nest) (i : ℕ) :
    (n.returned i).current = n.task ∧ (n.returned i).blocks = n.machine.blocks := by
  induction i with
  | zero => exact ⟨rfl, rfl⟩
  | succ i ih =>
      rw [returned, Function.iterate_succ_apply']
      change ((n.returned i).sysSigreturn.1).current = _ ∧ ((n.returned i).sysSigreturn.1).blocks = _
      rw [Machine.sysSigreturn]
      split_ifs
      · exact ih
      · exact ih

theorem returned_sysSigreturn (h0 : n.task ≠ 0) (i : ℕ) (f : TrapFrame) :
    (∃ s addr, (n.returned i).sysSigreturn = (s, some (addr, f))) ↔ f = n.machine.saved n.task := by
  obtain ⟨hcur, hblocks⟩ := n.returned_spec i
  rw [Machine.sysSigreturn_of_ne (hcur ▸ h0), hcur, hblocks]
  constructor
  · rintro ⟨s, addr, heq⟩
    exact (Prod.mk.inj (Option.some.inj (Prod.mk.inj heq).2)).2.symm
  · rintro rfl
    exact ⟨_, _, rfl⟩

/-- All handlers return to the one frame that is saved. -/
theorem unwinds_iff (h0 : n.task ≠ 0) : n.Unwinds ↔ ∀ f ∈ n.active, f = n.machine.saved n.task := by
  constructor
  · intro h f hf
    obtain ⟨i, hi⟩ := List.mem_iff_getElem?.1 hf
    exact (returned_sysSigreturn h0 i f).1 (h i f hi)
  · intro h i f hi
    exact (returned_sysSigreturn h0 i f).2 (h f (List.mem_of_getElem? hi))

/-- What the end of an exception leaves. -/
theorem check_some (h : check k s active frame = some n') :
    n'.task = s.current ∧
      (¬ Enters k (s.blocks s.current).task ∧ n'.active = active ∧
          n'.machine.saved n'.task = s.saved s.current ∨
        Enters k (s.blocks s.current).task ∧ n'.active = frame :: active ∧
          n'.machine.saved n'.task = frame) := by
  rw [check] at h
  rcases Machine.checkPendingSignals_cases k s s.current frame with
    ⟨s', heq, hcur, hsaved, hnot⟩ | ⟨s', heq⟩ | ⟨s', u, heq, hcur, hsaved, henters⟩
  · rw [heq] at h
    obtain rfl := Option.some.inj h
    refine ⟨hcur, Or.inl ⟨hnot, rfl, ?_⟩⟩
    rw [task, hcur]
    exact hsaved
  · rw [heq] at h
    cases h
  · rw [heq] at h
    obtain rfl := Option.some.inj h
    refine ⟨hcur, Or.inr ⟨henters, rfl, ?_⟩⟩
    rw [task, hcur]
    exact hsaved

theorem post_spec (s : Machine) (t : ℕ) (sig : ℤ) :
    (s.post t sig).current = s.current ∧ (s.post t sig).saved t = s.saved t := by
  rw [Machine.post]
  split_ifs
  · exact ⟨rfl, rfl⟩
  · refine ⟨rfl, ?_⟩
    change Block.area (Function.update s.blocks t _ t) = _
    rw [Function.update_self]
    rfl

/-- After an exception of a task whose handlers return to what is saved, they still do exactly when the
exception spares the save area. -/
theorem exception_unwinds (h0 : n.task ≠ 0) (h : n.Unwinds) {work : Machine → Machine}
    (hstep : n.step k (.exception work frame) = some n') :
    n'.Unwinds ↔ n.Spares k (.exception work frame) := by
  obtain ⟨hcur, hcases⟩ := check_some hstep
  have h0' : n'.task ≠ 0 := by
    rw [hcur]
    exact h0
  rw [unwinds_iff h0] at h
  rw [unwinds_iff h0', Spares]
  rcases hcases with ⟨hnot, hactive, hsaved⟩ | ⟨henters, hactive, hsaved⟩
  · rw [hactive, hsaved]
    constructor
    · intro hall hne
      refine ⟨fun henters => absurd henters hnot, fun _ => ?_⟩
      obtain ⟨f, hf⟩ := List.exists_mem_of_ne_nil _ hne
      exact (hall f hf).symm.trans (h f hf)
    · intro hspares f hf
      rw [h f hf]
      exact ((hspares (List.ne_nil_of_mem hf)).2 hnot).symm
  · rw [hactive, hsaved]
    constructor
    · intro hall hne
      refine ⟨fun _ => ?_, fun hnot => absurd henters hnot⟩
      obtain ⟨f, hf⟩ := List.exists_mem_of_ne_nil _ hne
      exact (hall f (List.mem_cons_of_mem _ hf)).symm.trans (h f hf)
    · intro hspares f hf
      rcases List.mem_cons.1 hf with rfl | hf
      · rfl
      · rw [h f hf]
        exact ((hspares (List.ne_nil_of_mem hf)).1 henters).symm

/-- A return leaves the save area, and a handler that is entered then saves the frame that is there. -/
theorem sigreturn_unwinds (h0 : n.task ≠ 0) (h : n.Unwinds) (hstep : n.step k .sigreturn = some n') :
    n'.Unwinds := by
  rw [step, Machine.sysSigreturn_of_ne h0] at hstep
  obtain ⟨hcur, hcases⟩ := check_some hstep
  have h0' : n'.task ≠ 0 := by
    rw [hcur]
    exact h0
  rw [unwinds_iff h0] at h
  rw [unwinds_iff h0']
  have htail : ∀ f ∈ n.active.tail, f = n.machine.saved n.task := fun f hf => h f (List.mem_of_mem_tail hf)
  rcases hcases with ⟨-, hactive, hsaved⟩ | ⟨-, hactive, hsaved⟩
  · rw [hactive, hsaved]
    exact htail
  · rw [hactive, hsaved]
    intro f hf
    rcases List.mem_cons.1 hf with rfl | hf
    · rfl
    · exact htail f hf

theorem step_unwinds (h0 : n.task ≠ 0) (h : n.Unwinds) (hstep : n.step k e = some n') :
    n'.Unwinds ↔ n.Spares k e := by
  cases e with
  | post sig =>
      obtain rfl := Option.some.inj hstep
      obtain ⟨hcur, hsaved⟩ := post_spec n.machine n.task sig
      refine iff_of_true ?_ trivial
      rw [unwinds_iff h0] at h
      rw [unwinds_iff (by rw [task, hcur]; exact h0)]
      intro f hf
      change f = (n.machine.post n.task sig).saved (n.machine.post n.task sig).current
      rw [h f hf, hcur]
      exact hsaved.symm
  | exception work frame => exact exception_unwinds h0 h hstep
  | sigreturn => exact iff_of_true (sigreturn_unwinds h0 h hstep) trivial

theorem step_task (h0 : n.task ≠ 0) (hstep : n.step k e = some n') : n'.task = n.task := by
  cases e with
  | post sig =>
      obtain rfl := Option.some.inj hstep
      exact (post_spec n.machine n.task sig).1
  | exception work frame => exact (check_some hstep).1
  | sigreturn =>
      rw [step, Machine.sysSigreturn_of_ne h0] at hstep
      exact (check_some hstep).1

theorem run_cons (k : Symbols) (n : Nest) (e : Event) (l : List Event) :
    n.run k (e :: l) = (n.step k e).bind fun n => n.run k l := rfl

theorem run_append (k : Symbols) (n : Nest) (l₁ l₂ : List Event) :
    n.run k (l₁ ++ l₂) = (n.run k l₁).bind fun n => n.run k l₂ :=
  List.foldlM_append ..

theorem run_task (h0 : n.task ≠ 0) (hrun : n.run k l = some n') : n'.task = n.task := by
  induction l generalizing n with
  | nil => rw [Option.some.inj hrun]
  | cons e l ih =>
      obtain ⟨n₁, hstep, hrest⟩ := Option.bind_eq_some_iff.1 hrun
      have htask := step_task h0 hstep
      exact (ih (htask ▸ h0) hrest).trans htask

def UnwindsAlong (k : Symbols) (n₀ : Nest) (l : List Event) : Prop :=
  ∀ l₁ l₂ n, l = l₁ ++ l₂ → n₀.run k l₁ = some n → n.Unwinds

def SparesAlong (k : Symbols) (n₀ : Nest) (l : List Event) : Prop :=
  ∀ l₁ e l₂ n, l = l₁ ++ e :: l₂ → n₀.run k l₁ = some n → n.Spares k e

theorem unwindsAlong_of_spares (h0 : n₀.task ≠ 0) (h : n₀.Unwinds) (hspares : SparesAlong k n₀ l) :
    UnwindsAlong k n₀ l := by
  induction l generalizing n₀ with
  | nil =>
      intro l₁ l₂ n hl hrun
      rw [(List.append_eq_nil_iff.1 hl.symm).1] at hrun
      rw [← Option.some.inj hrun]
      exact h
  | cons e l ih =>
      intro l₁ l₂ n hl hrun
      cases l₁ with
      | nil =>
          rw [← Option.some.inj hrun]
          exact h
      | cons e' l₁ =>
          obtain ⟨rfl, hrest⟩ := List.cons_eq_cons.1 hl
          obtain ⟨n₁, hstep, hrun⟩ := Option.bind_eq_some_iff.1 hrun
          have h₁ := (step_unwinds h0 h hstep).2 (hspares [] e l n₀ rfl rfl)
          refine ih ((step_task h0 hstep).symm ▸ h0) h₁ (fun l₁' e' l₂' n' hl' hrun' => ?_) l₁ l₂ n hrest hrun
          refine hspares (e :: l₁') e' l₂' n' (by rw [hl', List.cons_append]) ?_
          rw [run_cons, hstep]
          exact hrun'

/-- Whatever is posted and whenever the task enters the kernel, its handlers unwind in order all along the run
exactly when no event of the run takes the save area from a handler that is active. -/
theorem nested_signals_unwind_iff (h0 : n₀.task ≠ 0) (hidle : n₀.active = [])
    (hrun : n₀.run k l = some n) : UnwindsAlong k n₀ l ↔ SparesAlong k n₀ l := by
  have h : n₀.Unwinds := by
    intro i f hi
    rw [hidle] at hi
    cases hi
  refine ⟨fun hall l₁ e l₂ n₁ hl hrun₁ => ?_, unwindsAlong_of_spares h0 h⟩
  rw [hl, run_append, hrun₁, Option.bind_some, run_cons] at hrun
  obtain ⟨n₂, hstep, -⟩ := Option.bind_eq_some_iff.1 hrun
  have h₁ := hall l₁ (e :: l₂) n₁ hl hrun₁
  have h₂ : n₂.Unwinds := by
    refine hall (l₁ ++ [e]) l₂ n₂ (by rw [hl, List.append_assoc, List.singleton_append]) ?_
    rw [run_append, hrun₁, Option.bind_some, run_cons, hstep]
    rfl
  exact (step_unwinds ((run_task h0 hrun₁).symm ▸ h0) h₁ hstep).1 h₂

def sampleNest : Nest where
  machine :=
    { Machine.sampleMachine with
      heap := { Machine.sampleMachine.heap with plan := fun i => 65536 + 4096 * i } }
  active := []

def handlerFrame : TrapFrame := fun i => BitVec.ofNat 64 (100 + i.val)

/-- Two signals are pending at once, and the second is delivered to the handler of the first. -/
def twoSignals : List Event :=
  [.post 10, .post 11, .exception id Machine.sampleFrame, .exception id handlerFrame, .sigreturn]

theorem nested_signals_unwind_two :
    ∃ n, sampleNest.run Machine.sampleSymbols twoSignals = some n ∧
      (UnwindsAlong Machine.sampleSymbols sampleNest twoSignals ↔
        SparesAlong Machine.sampleSymbols sampleNest twoSignals) := by
  have hrun : sampleNest.run Machine.sampleSymbols twoSignals = some _ := rfl
  exact ⟨_, hrun, nested_signals_unwind_iff (by decide) rfl hrun⟩

/-- After the handler of the second signal the first one is to return to the task, and returns to itself. -/
theorem nested_signals_lost :
    ∃ n, sampleNest.run Machine.sampleSymbols twoSignals = some n ∧ n.active = [Machine.sampleFrame] ∧
      (∃ s addr, n.machine.sysSigreturn = (s, some (addr, handlerFrame))) ∧
      handlerFrame ≠ Machine.sampleFrame ∧ ¬ UnwindsAlong Machine.sampleSymbols sampleNest twoSignals := by
  have hrun : sampleNest.run Machine.sampleSymbols twoSignals = some _ := rfl
  have hne : handlerFrame ≠ Machine.sampleFrame := fun h => absurd (congrFun h 0) (by decide)
  refine ⟨_, hrun, rfl, ?_, hne, fun hall => ?_⟩
  · refine (returned_sysSigreturn (by decide) 0 handlerFrame).2 (funext ?_)
    decide
  · have hunwinds := hall twoSignals [] _ (List.append_nil _).symm hrun
    have hframe := (unwinds_iff (by decide)).1 hunwinds Machine.sampleFrame List.mem_cons_self
    exact absurd (congrFun hframe 0) (by decide)

end Nest

end OscKernel.Proc
