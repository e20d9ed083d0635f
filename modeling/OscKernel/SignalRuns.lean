import OscKernel.NestedSignals
import OscKernel.Runs

/-!
# No signal is lost

A signal that is posted to a task stays pending until `handle_signal` is called for it, and posts of one that
is pending already are one with it. A call of `check_pending_signals` handles the pending signals from the
least one on, all of them or up to one whose handler does not come back.
-/

namespace OscKernel.Proc.Machine

open Runs

theorem toNat_lt_sigNum {sig : ℤ} (h : ¬ (sig < 0 ∨ sig ≥ sigNum)) : sig.toNat < sigNum := by omega

def sysSignal (s : Machine) (sig : ℤ) (handler : BitVec 64) : Machine × Option (BitVec 64) :=
  if s.current = 0 then (s, none)
  else if h : sig < 0 ∨ sig ≥ sigNum then (s, none)
  else
    let i : Fin sigNum := ⟨sig.toNat, toNat_lt_sigNum h⟩
    (s.setTask s.current fun b => { b with sigHandlers := Function.update b.sigHandlers i handler },
      some ((s.blocks s.current).task.sigHandlers i))

/-- The signals for which the loop of `check_pending_signals` calls `handle_signal`, in this order. -/
def handledSignals (k : Symbols) (task : ℕ) (frame : TrapFrame) :
    List (Fin sigNum) → Machine → List (Fin sigNum)
  | [], _ => []
  | sig :: l, s =>
      if (s.blocks task).task.pendingSig.getLsbD sig then
        sig ::
          match handleSignal k (s.clearSignal task sig) task (sig : ℕ) frame with
          | (s, .returned) => handledSignals k task frame l s
          | _ => []
      else handledSignals k task frame l s

def handledPending (k : Symbols) (s : Machine) (task : ℕ) (frame : TrapFrame) : List (Fin sigNum) :=
  if (s.blocks task).task.pendingSig = 0 then [] else handledSignals k task frame (List.finRange sigNum) s

def Outcome.back : Outcome → Bool
  | .returned => true
  | _ => false

inductive SignalEvent
  | post (sig : Fin sigNum)
  | check (handled : List (Fin sigNum)) (back : Bool)

/-- What may happen to a task, as far as its pending signals go. -/
inductive SignalStep (k : Symbols) (task : ℕ) : Machine → Option SignalEvent → Machine → Prop
  | sigkill {s : Machine} (sig : Fin sigNum) :
      SignalStep k task s (some (.post sig)) (s.post task (sig : ℕ))
  | invalid {s : Machine} {sig : ℤ} (h : sig < 0 ∨ sig ≥ sigNum) : SignalStep k task s none (s.post task sig)
  | signal {s : Machine} (sig : ℤ) (handler : BitVec 64) :
      SignalStep k task s none (s.sysSignal sig handler).1
  | check {s : Machine} (frame : TrapFrame) :
      SignalStep k task s
        (some (.check (s.handledPending k task frame) (s.checkPendingSignals k task frame).2.back))
        (s.checkPendingSignals k task frame).1
  | work {s s' : Machine} (h : (s'.blocks task).task.pendingSig = (s.blocks task).task.pendingSig) :
      SignalStep k task s none s'

def owed (i : Fin sigNum) (events : List (Option SignalEvent)) : Bool :=
  events.foldl (fun b e =>
    match e with
    | some (.post sig) => sig = i ∨ b
    | some (.check handled _) => b ∧ i ∉ handled
    | none => b) false

/-- The signals `handled`, of those that are owed: in their order, and none is left behind but by one whose
handler does not come back. -/
structure Handles (events : List (Option SignalEvent)) (handled : List (Fin sigNum)) (back : Bool) :
    Prop where
  sorted : handled.Pairwise (· < ·)
  posted : ∀ i ∈ handled, owed i events
  left : ∀ i, owed i events → i ∉ handled →
    back = false ∧ ∃ j, handled.getLast? = some j ∧ j < i

variable {k : Symbols} {s s' s₀ : Machine} {task : ℕ} {frame : TrapFrame} {sig i j : Fin sigNum}
  {l : List (Fin sigNum)} {e : Option SignalEvent} {events : List (Option SignalEvent)}

def pending (s : Machine) (task : ℕ) (i : Fin sigNum) : Bool :=
  (s.blocks task).task.pendingSig.getLsbD i

theorem pendingSig_setTask (s : Machine) (t task : ℕ) (f : ThreadTask → ThreadTask)
    (hf : ∀ b, (f b).pendingSig = b.pendingSig) :
    ((s.setTask t f).blocks task).task.pendingSig = (s.blocks task).task.pendingSig := by
  change (Function.update s.blocks t _ task).task.pendingSig = _
  by_cases ht : task = t
  · subst ht
    rw [Function.update_self]
    exact hf _
  · rw [Function.update_of_ne ht]

theorem handleSignal_pendingSig (k : Symbols) (s : Machine) (task : ℕ) (sig : ℤ) (frame : TrapFrame) :
    ((handleSignal k s task sig frame).1.blocks task).task.pendingSig = (s.blocks task).task.pendingSig := by
  rcases handleSignal_cases k s task sig frame with heq | heq | ⟨handler, heq⟩
  · rw [heq]
  · rw [heq]
    exact pendingSig_setTask s task task (fun b => { b with state := taskExited }) fun _ => rfl
  · rw [heq, enterHandler_block]
    rfl

theorem pending_clearSignal (s : Machine) (task : ℕ) (sig i : Fin sigNum) :
    (s.clearSignal task sig).pending task i = (s.pending task i && decide (i ≠ sig)) := by
  by_cases hi : i = sig
  · subst hi
    have hblock : ((s.clearSignal task i).blocks task).task.pendingSig =
        (s.blocks task).task.pendingSig &&& ~~~ (1#32 <<< i.val) := by
      rw [clearSignal, setTask, setBlock]
      simp only [Function.update_self]
    have hlt : i.val < 32 := i.isLt
    rw [pending, hblock, BitVec.getLsbD_and, BitVec.getLsbD_not, BitVec.getLsbD_shiftLeft]
    simp [hlt]
  · rw [pending, pending, (clearSignal_spec s task sig).2.1 i hi]
    simp [hi]

theorem pending_post (s : Machine) (task : ℕ) (sig i : Fin sigNum) :
    (s.post task (sig : ℕ)).pending task i = (decide (sig = i) || s.pending task i) := by
  have hsig : ¬ ((sig.val : ℤ) < 0 ∨ (sig.val : ℤ) ≥ sigNum) := by
    have hlt := sig.isLt
    omega
  have hblock : ((s.post task (sig : ℕ)).blocks task).task.pendingSig =
      (s.blocks task).task.pendingSig ||| 1#32 <<< sig.val := by
    rw [post, if_neg hsig, setTask, setBlock]
    simp only [Function.update_self, Int.toNat_natCast]
  have hi : i.val < 32 := i.isLt
  rw [pending, hblock, BitVec.getLsbD_or, BitVec.getLsbD_shiftLeft, BitVec.getLsbD_one, pending, Bool.or_comm]
  refine congrArg (· || _) ?_
  rw [Bool.eq_iff_iff]
  simp only [hi, Bool.and_eq_true, Bool.not_eq_true', decide_eq_true_eq, decide_eq_false_iff_not, Fin.ext_iff,
    true_and]
  constructor
  · rintro ⟨hle, -, hsub⟩
    omega
  · intro heq
    omega

/-- What a loop over `l` that handles the signals `handled` leaves. -/
structure Handled (s : Machine) (task : ℕ) (l handled : List (Fin sigNum)) (r : Machine × Outcome) :
    Prop where
  sublist : handled.Sublist l
  pending : ∀ i ∈ handled, s.pending task i
  cleared : ∀ i, r.1.pending task i = (s.pending task i && decide (i ∉ handled))
  left : ∀ i ∈ l, s.pending task i → i ∉ handled →
    r.2.back = false ∧ ∃ j, handled.getLast? = some j ∧ j < i

variable {handled : List (Fin sigNum)} {r : Machine × Outcome}

/-- The signal in front is not pending. -/
theorem Handled.skip (h : Handled s task l handled r) (hnot : s.pending task sig = false) :
    Handled s task (sig :: l) handled r := by
  refine ⟨h.sublist.cons sig, h.pending, h.cleared, fun i hi hpending => ?_⟩
  rcases List.mem_cons.1 hi with rfl | hi
  · rw [hnot] at hpending
    cases hpending
  · exact h.left i hi hpending

/-- The signal in front is pending, and its handler comes back. -/
theorem Handled.cons (h : Handled s' task l handled r) (hsig : s.pending task sig)
    (hclear : ∀ i, s'.pending task i = (s.pending task i && decide (i ≠ sig))) :
    Handled s task (sig :: l) (sig :: handled) r := by
  refine ⟨h.sublist.cons_cons sig, ?_, fun i => ?_, fun i hi hpending hnot => ?_⟩
  · rw [List.forall_mem_cons]
    refine ⟨hsig, fun i hi => ?_⟩
    have hpending := h.pending i hi
    rw [hclear, Bool.and_eq_true] at hpending
    exact hpending.1
  · rw [h.cleared, hclear, Bool.and_assoc]
    simp [not_or]
  · rw [List.mem_cons, not_or] at hnot
    have hi' := (List.mem_cons.1 hi).resolve_left hnot.1
    obtain ⟨hback, j, hj, hlt⟩ := h.left i hi' (by rw [hclear, hpending]; simpa using hnot.1) hnot.2
    refine ⟨hback, j, ?_, hlt⟩
    rw [List.getLast?_cons, hj]
    rfl

/-- The signal in front is pending, and its handler does not come back. -/
theorem Handled.stop (hsorted : (sig :: l).Pairwise (· < ·)) (hsig : s.pending task sig)
    (hclear : ∀ i, s'.pending task i = (s.pending task i && decide (i ≠ sig))) {o : Outcome}
    (hback : o.back = false) : Handled s task (sig :: l) [sig] (s', o) := by
  refine ⟨List.singleton_sublist.2 List.mem_cons_self, ?_, fun i => ?_, fun i hi _ hnot => ?_⟩
  · rw [List.forall_mem_singleton]
    exact hsig
  · rw [hclear]
    simp
  · rw [List.mem_singleton] at hnot
    have hi' := (List.mem_cons.1 hi).resolve_left hnot
    exact ⟨hback, sig, rfl, (List.pairwise_cons.1 hsorted).1 i hi'⟩

theorem checkSignals_handled (k : Symbols) (task : ℕ) (frame : TrapFrame) (hl : l.Pairwise (· < ·))
    (s : Machine) :
    Handled s task l (handledSignals k task frame l s) (checkSignals k task frame l s) := by
  induction l generalizing s with
  | nil => exact ⟨List.Sublist.slnil, nofun, fun i => by simp [checkSignals, handledSignals], nofun⟩
  | cons sig l ih =>
      have hl' := (List.pairwise_cons.1 hl).2
      rw [checkSignals, handledSignals]
      by_cases hsig : (s.blocks task).task.pendingSig.getLsbD sig
      swap
      · rw [if_neg hsig, if_neg hsig]
        exact (ih hl' s).skip (Bool.eq_false_iff.2 hsig)
      rw [if_pos hsig, if_pos hsig]
      have hclear : ∀ i, (handleSignal k (s.clearSignal task sig) task (sig : ℕ) frame).1.pending task i =
          (s.pending task i && decide (i ≠ sig)) := fun i => by
        rw [← pending_clearSignal, pending, pending, handleSignal_pendingSig]
      generalize handleSignal k (s.clearSignal task sig) task (sig : ℕ) frame = r at hclear
      obtain ⟨s', o⟩ := r
      cases o with
      | returned => exact (ih hl' s').cons hsig hclear
      | exited => exact Handled.stop hl hsig hclear rfl
      | entered u => exact Handled.stop hl hsig hclear rfl

theorem checkPendingSignals_handled (k : Symbols) (s : Machine) (task : ℕ) (frame : TrapFrame) :
    Handled s task (List.finRange sigNum) (s.handledPending k task frame)
      (s.checkPendingSignals k task frame) := by
  rw [handledPending, checkPendingSignals]
  by_cases h0 : (s.blocks task).task.pendingSig = 0
  · have hnone : ∀ i, s.pending task i = false := fun i => by
      rw [pending, h0]
      simp
    rw [if_pos h0, if_pos h0]
    refine ⟨List.nil_sublist _, fun i hi => absurd hi List.not_mem_nil, fun i => by simp, fun i _ hi => ?_⟩
    rw [hnone i] at hi
    cases hi
  · rw [if_neg h0, if_neg h0]
    exact checkSignals_handled k task frame (List.pairwise_lt_finRange sigNum) s

theorem owed_concat (i : Fin sigNum) (events : List (Option SignalEvent)) (e : Option SignalEvent) :
    owed i (events ++ [e]) =
      match e with
      | some (.post sig) => decide (sig = i ∨ owed i events)
      | some (.check handled _) => decide (owed i events ∧ i ∉ handled)
      | none => owed i events := by
  rw [owed, List.foldl_append]
  rfl

theorem sysSignal_pendingSig (s : Machine) (task : ℕ) (sig : ℤ) (handler : BitVec 64) :
    (((s.sysSignal sig handler).1).blocks task).task.pendingSig = (s.blocks task).task.pendingSig := by
  rw [sysSignal]
  split_ifs with h0 hsig
  · rfl
  · rfl
  · exact pendingSig_setTask s s.current task
      (fun b => { b with sigHandlers := Function.update b.sigHandlers _ _ }) fun _ => rfl

/-- A step keeps that the pending signals are those that are owed. -/
theorem SignalStep.keeps (h : SignalStep k task s e s') (hs : ∀ i, s.pending task i = owed i events) :
    (∀ i, s'.pending task i = owed i (events ++ [e])) ∧
      ∀ handled back, e = some (.check handled back) → Handles events handled back := by
  have hsame : ∀ {s' : Machine}, (s'.blocks task).task.pendingSig = (s.blocks task).task.pendingSig →
      ∀ i, s'.pending task i = owed i (events ++ [none]) := fun h i => by
    rw [owed_concat, ← hs, pending, pending, h]
  cases h with
  | sigkill sig =>
      refine ⟨fun i => ?_, nofun⟩
      rw [pending_post, owed_concat, hs]
      simp
  | invalid hinvalid =>
      refine ⟨hsame ?_, nofun⟩
      rw [post, if_pos hinvalid]
  | signal sig handler => exact ⟨hsame (sysSignal_pendingSig s task sig handler), nofun⟩
  | check frame =>
      have h := checkPendingSignals_handled k s task frame
      refine ⟨fun i => ?_, ?_⟩
      · rw [h.cleared, hs, owed_concat]
        simp
      · rintro handled back ⟨⟩
        refine ⟨(List.pairwise_lt_finRange sigNum).sublist h.sublist, fun i hi => ?_, fun i hi hnot => ?_⟩
        · rw [← hs]
          exact h.pending i hi
        · rw [← hs] at hi
          exact h.left i (List.mem_finRange i) hi hnot
  | work h => exact ⟨hsame h, nofun⟩

/-- In every run of a task that starts with no signal pending, a signal is pending exactly from a post until
`handle_signal` is called for it. Each check handles pending signals only, from the least one on and each
once, and leaves none behind but those after one whose handler does not come back. -/
theorem signals_not_lost (h0 : (s₀.blocks task).task.pendingSig = 0)
    (hrun : Trace (SignalStep k task) s₀ events s) :
    (∀ i, s.pending task i = owed i events) ∧
      ∀ events₁ handled back events₂, events = events₁ ++ some (.check handled back) :: events₂ →
        Handles events₁ handled back := by
  have hall : (∀ i, s.pending task i = owed i events) ∧
      ∀ events₁ e events₂, events = events₁ ++ e :: events₂ →
        ∀ handled back, e = some (.check handled back) → Handles events₁ handled back := by
    induction hrun with
    | nil =>
        refine ⟨fun i => ?_, fun _ _ _ h => absurd h (by simp)⟩
        rw [pending, h0]
        simp [owed]
    | @snoc events e s s' _ hstep ih =>
        obtain ⟨hs, hchecks⟩ := ih
        obtain ⟨hs', hcheck⟩ := hstep.keeps hs
        exact ⟨hs', (forall_split_concat
          (P := fun events e => ∀ handled back, e = some (.check handled back) → Handles events handled back)
          events e).2 ⟨hchecks, hcheck⟩⟩
  exact ⟨hall.1, fun events₁ handled back events₂ heq => hall.2 events₁ _ events₂ heq handled back rfl⟩

def firstSignal : Fin sigNum := (10 : Fin 32)
def secondSignal : Fin sigNum := (11 : Fin 32)

def posted : Machine := (sampleMachine.post 4096 (secondSignal : ℕ)).post 4096 (firstSignal : ℕ)

def postedEvents : List (Option SignalEvent) :=
  [some (.post secondSignal), some (.post firstSignal), some (.check [firstSignal] false)]

/-- The handler of the first one is entered, and the second one stays pending. -/
theorem posted_run : Trace (SignalStep sampleSymbols 4096) sampleMachine postedEvents
    (posted.checkPendingSignals sampleSymbols 4096 sampleFrame).1 :=
  ((Trace.nil.snoc (SignalStep.sigkill secondSignal)).snoc (SignalStep.sigkill firstSignal)).snoc
    (SignalStep.check (s := posted) sampleFrame)

theorem signals_not_lost_posted :
    (∀ i, (posted.checkPendingSignals sampleSymbols 4096 sampleFrame).1.pending 4096 i =
        owed i postedEvents) ∧
      ∀ events₁ handled back events₂, postedEvents = events₁ ++ some (.check handled back) :: events₂ →
        Handles events₁ handled back :=
  signals_not_lost rfl posted_run

end OscKernel.Proc.Machine
