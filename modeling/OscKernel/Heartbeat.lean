import OscKernel.TimerRuns

/-!
# The timer that keeps the scheduler going

`timer_init` adds a timer whose callback is `keep_schedule`, and `keep_schedule` adds the next one and asks
for a call of `schedule`. Whatever other timers there are and however the runs of the handler nest, the
number of these timers on the list, with the runs of `keep_schedule` that have yet to add one, is one all
along; and a run of the handler ends in a call of `schedule` exactly if one was asked for.
-/

namespace OscKernel.Timer

open Linked Runs
open Vfs (Heap)

/-- What a callback has left to do before it returns; only `keep_schedule` starts with `arm`. -/
inductive Left
  | arm
  | ask
  | rest
  deriving DecidableEq

structure Beat where
  timer : State
  left : List Left

inductive Event
  | ask
  | finish (scheduled : Bool)
  deriving DecidableEq

def Left.ofCallback (keepSchedule callback : ℕ) : Left := if callback = keepSchedule then .arm else .rest

/-- The steps of the timers, with the body of `keep_schedule`: it adds a timer, sets `need_schedule` and
returns. All other timers have another callback. Each `add_timer` gets memory, and its message and its time
fit. The end of a run of the handler shows whether it calls `schedule`. -/
inductive Beats (keepSchedule : UInt64) : Beat → Option Event → Beat → Prop
  | add {s : State} {left : List Left} (callback : UInt64) (msg : List UInt8) (tick currTick : ℕ)
      (hother : callback ≠ keepSchedule) (hcall : s.Calling) (hclock : s.clock ≤ currTick)
      (hlt : currTick + tick < 2 ^ 64) (halloc : (s.heap.alloc nodeSize).2 ≠ 0) (hmsg : Fits msg) :
      Beats keepSchedule ⟨s, left⟩ none ⟨addTimer s callback msg tick currTick, left⟩
  | arm {s : State} {left : List Left} (msg : List UInt8) (tick currTick : ℕ) (hcall : s.Calling)
      (hclock : s.clock ≤ currTick) (hlt : currTick + tick < 2 ^ 64)
      (halloc : (s.heap.alloc nodeSize).2 ≠ 0) (hmsg : Fits msg) :
      Beats keepSchedule ⟨s, .arm :: left⟩ none ⟨addTimer s keepSchedule msg tick currTick, .ask :: left⟩
  | ask {s : State} {left : List Left} (hcall : s.Calling) :
      Beats keepSchedule ⟨s, .ask :: left⟩ (some .ask) ⟨{ s with needSchedule := true }, .rest :: left⟩
  | enter {s : State} {left : List Left} (currTick : ℕ) (hcall : s.Calling) (hclock : s.clock ≤ currTick) :
      Beats keepSchedule ⟨s, left⟩ none ⟨handlerEnter s currTick, left⟩
  | fire {s : State} {left : List Left} {f : Frame} {rest : List Frame} (hframes : s.frames = f :: rest)
      (hcurr : f.curr = none) (hexp : Expired s f) :
      Beats keepSchedule ⟨s, left⟩ none
        ⟨handlerLoop s f rest,
          .ofCallback keepSchedule.toNat (callback (handlerLoop s f rest).mem s.timerHead) :: left⟩
  | finish {s : State} {left : List Left} {f : Frame} {rest : List Frame} (hframes : s.frames = f :: rest)
      (hcurr : f.curr = none) (hexp : ¬ Expired s f) :
      Beats keepSchedule ⟨s, left⟩ (some (.finish s.needSchedule)) ⟨handlerLoop s f rest, left⟩
  | ret {s : State} {left : List Left} {f : Frame} {rest : List Frame} {curr : ℕ}
      (hframes : s.frames = f :: rest) (hcurr : f.curr = some curr) :
      Beats keepSchedule ⟨s, .rest :: left⟩ none ⟨callbackReturn s f rest curr, left⟩

/-- `keep_schedule` has asked for a call of `schedule` since a run of the handler ended last. -/
def asked (events : List (Option Event)) : Bool :=
  events.foldl (fun b e =>
    match e with
    | some .ask => true
    | some (.finish _) => false
    | none => b) false

variable {ks : UInt64} {b b' : Beat} {e : Option Event} {s s' : State} {l : List ℕ}

theorem Beats.step (h : Beats ks b e b') : Step Fits b.timer b'.timer := by
  cases h with
  | add c msg tick currTick _ hcall hclock hlt halloc hmsg =>
      exact Step.add c msg tick currTick hcall hclock hlt halloc hmsg
  | arm msg tick currTick hcall hclock hlt halloc hmsg =>
      exact Step.add ks msg tick currTick hcall hclock hlt halloc hmsg
  | ask hcall => exact Step.keepSchedule hcall
  | enter currTick hcall hclock => exact Step.enter currTick hcall hclock
  | fire hframes hcurr _ => exact Step.loop hframes hcurr
  | finish hframes hcurr _ => exact Step.loop hframes hcurr
  | ret hframes hcurr => exact Step.ret hframes hcurr

/-- A timer of `keep_schedule` was added for every one that fired, and one more unless a run of
`keep_schedule` has yet to do so. -/
def Beat.Balanced (ks : UInt64) (b : Beat) : Prop :=
  b.timer.added.countP (fun t => t.callback = ks) + b.left.count .arm =
    b.timer.fired.countP (fun r => r.callback = ks.toNat) + 1

theorem balanced_mk {left : List Left} : Beat.Balanced ks ⟨s, left⟩ ↔
    s.added.countP (fun t => t.callback = ks) + left.count .arm =
      s.fired.countP (fun r => r.callback = ks.toNat) + 1 :=
  Iff.rfl

theorem addTimer_added (c : UInt64) (msg : List UInt8) (tick currTick : ℕ)
    (halloc : (s.heap.alloc nodeSize).2 ≠ 0) :
    (addTimer s c msg tick currTick).added =
      s.added ++ [⟨(s.heap.alloc nodeSize).2, c, currTick + tick⟩] := by
  rw [addTimer, if_neg halloc]

theorem addTimer_fired (s : State) (c : UInt64) (msg : List UInt8) (tick currTick : ℕ) :
    (addTimer s c msg tick currTick).fired = s.fired := by
  rw [addTimer]
  split_ifs <;> rfl

theorem handlerLoop_fired {f : Frame} (rest : List Frame) (hexp : Expired s f) :
    (handlerLoop s f rest).fired =
      s.fired ++ [⟨s.owner s.timerHead, f.currTick, callback (handlerLoop s f rest).mem s.timerHead⟩] := by
  rw [handlerLoop, if_pos hexp]

theorem handlerLoop_added (s : State) (f : Frame) (rest : List Frame) :
    (handlerLoop s f rest).added = s.added := by
  rw [handlerLoop]
  split_ifs <;> rfl

theorem Beats.balanced (h : Beats ks b e b') (hb : b.Balanced ks) : b'.Balanced ks := by
  cases h with
  | add c msg tick currTick hother _ _ _ halloc _ =>
      rw [balanced_mk] at hb ⊢
      rw [addTimer_added c msg tick currTick halloc, addTimer_fired, List.countP_append,
        List.countP_singleton, if_neg (by simpa using hother)]
      exact hb
  | arm msg tick currTick _ _ _ halloc _ =>
      rw [balanced_mk] at hb ⊢
      rw [addTimer_added ks msg tick currTick halloc, addTimer_fired, List.countP_append,
        List.countP_singleton, if_pos (by simp), List.count_cons_of_ne (by decide)]
      rw [List.count_cons_self] at hb
      omega
  | ask _ =>
      rw [balanced_mk] at hb ⊢
      rw [List.count_cons_of_ne (by decide)] at hb ⊢
      exact hb
  | enter currTick _ _ => exact hb
  | @fire s left f rest _ _ hexp =>
      rw [balanced_mk] at hb ⊢
      rw [handlerLoop_added, handlerLoop_fired rest hexp, List.countP_append, List.countP_singleton,
        Left.ofCallback]
      by_cases hks : callback (handlerLoop s f rest).mem s.timerHead = ks.toNat
      · rw [if_pos hks, if_pos (by simpa using hks), List.count_cons_self]
        omega
      · rw [if_neg hks, if_neg (by simpa using hks), List.count_cons_of_ne (by decide)]
        exact hb
  | @finish s left f rest _ _ hexp =>
      rw [balanced_mk] at hb ⊢
      have hfired : (handlerLoop s f rest).fired = s.fired := by rw [handlerLoop, if_neg hexp]
      rw [handlerLoop_added, hfired]
      exact hb
  | ret _ _ =>
      rw [balanced_mk] at hb ⊢
      rw [List.count_cons_of_ne (by decide)] at hb
      exact hb

/-- The positions of the entries with a property, as many as there are such entries. -/
theorem countP_range {α : Type*} (xs : List α) (p : α → Bool) :
    (List.range xs.length).countP (fun i => (xs[i]?).any p) = xs.countP p := by
  have hmap : (List.range xs.length).map (fun i => xs[i]?) = xs.map some := by
    refine List.ext_getElem (by simp) fun i h₁ h₂ => ?_
    simp
  have hcount := congrArg (List.countP (Option.any p)) hmap
  rw [List.countP_map, List.countP_map] at hcount
  exact hcount

theorem Inv.countP_callback (h : Inv s l) (ks : UInt64) :
    l.countP (fun a => callback s.mem a = ks.toNat) +
      s.fired.countP (fun r => r.callback = ks.toNat) = s.added.countP (fun t => t.callback = ks) := by
  have hcount := h.once.countP_eq fun i => (s.added[i]?).any fun t => t.callback = ks
  rw [countP_range, List.countP_append, List.countP_map, List.countP_map] at hcount
  rw [← hcount]
  refine congrArg₂ (· + ·) (List.countP_congr fun a ha => ?_) (List.countP_congr fun r hr => ?_)
  · obtain ⟨t, ht, hholds⟩ := h.holds a ha
    simp [ht, hholds.callback, UInt64.toNat_inj]
  · obtain ⟨t, ht, -, hcallback⟩ := h.punctual r hr
    simp [ht, hcallback, UInt64.toNat_inj]

theorem Beats.run {events : List (Option Event)} (hrun : Trace (Beats ks) b events b') (hb : b.Balanced ks)
    (hI : ∃ l, Inv b.timer l) : b'.Balanced ks ∧ ∃ l, Inv b'.timer l := by
  induction hrun with
  | nil => exact ⟨hb, hI⟩
  | snoc _ hstep ih =>
      obtain ⟨hb', hI'⟩ := ih
      exact ⟨hstep.balanced hb', inv_stable hI' hstep.step⟩

theorem asked_concat (events : List (Option Event)) (e : Option Event) :
    asked (events ++ [e]) =
      match e with
      | some .ask => true
      | some (.finish _) => false
      | none => asked events := by
  rw [asked, List.foldl_append]
  rfl

/-- `need_schedule` says whether a call of `schedule` was asked for. -/
theorem Beats.needSchedule (h : Beats ks b e b') {events : List (Option Event)}
    (hasked : b.timer.needSchedule = asked events) :
    b'.timer.needSchedule = asked (events ++ [e]) ∧ ∀ c, e = some (.finish c) → c = asked events := by
  rw [asked_concat]
  have hother : ∀ {e : Option Event}, (∀ c, e ≠ some (.finish c)) →
      ∀ c, e = some (.finish c) → c = asked events := fun hne c hc => absurd hc (hne c)
  cases h with
  | add c msg tick currTick _ _ _ _ halloc _ =>
      rw [addTimer, if_neg halloc]
      exact ⟨hasked, hother (by simp)⟩
  | arm msg tick currTick _ _ _ halloc _ =>
      rw [addTimer, if_neg halloc]
      exact ⟨hasked, hother (by simp)⟩
  | ask _ => exact ⟨rfl, hother (by simp)⟩
  | enter currTick _ _ => exact ⟨hasked, hother (by simp)⟩
  | fire _ _ hexp =>
      rw [handlerLoop, if_pos hexp]
      exact ⟨hasked, hother (by simp)⟩
  | finish _ _ hexp =>
      rw [handlerLoop, if_neg hexp]
      refine ⟨rfl, ?_⟩
      rintro c ⟨⟩
      exact hasked
  | ret _ _ => exact ⟨hasked, hother (by simp)⟩

theorem asked_of_run {events : List (Option Event)} (hrun : Trace (Beats ks) b events b')
    (h0 : b.timer.needSchedule = false) :
    b'.timer.needSchedule = asked events ∧
      ∀ events₁ e events₂, events = events₁ ++ e :: events₂ →
        ∀ c, e = some (.finish c) → c = asked events₁ := by
  induction hrun with
  | nil => exact ⟨h0, fun _ _ _ h => absurd h (by simp)⟩
  | @snoc events e b₁ b₂ _ hstep ih =>
      obtain ⟨hneed, hfinish⟩ := ih
      obtain ⟨hneed', hfinish'⟩ := hstep.needSchedule hneed
      exact ⟨hneed', (forall_split_concat
        (P := fun events e => ∀ c, e = some (.finish c) → c = asked events) events e).2
          ⟨hfinish, hfinish'⟩⟩

/-- After `timer_init`: the list holds one timer of `keep_schedule` all along, but for the time in which one
run of `keep_schedule` has yet to add it; and a run of the handler ends in a call of `schedule` exactly if
`keep_schedule` has asked for one since the last such end. -/
theorem heartbeat {events : List (Option Event)} {msg : List UInt8} {tick currTick : ℕ} (h0 : s.Initial)
    (hneed : s.needSchedule = false) (halloc : (s.heap.alloc nodeSize).2 ≠ 0) (hmsg : Fits msg)
    (hlt : currTick + tick < 2 ^ 64)
    (hrun : Trace (Beats ks) ⟨addTimer s ks msg tick currTick, []⟩ events b) :
    (∃ l, Chain (nextPtr b.timer.mem) (ptr b.timer.timerHead) l ∧
      l.countP (fun a => callback b.timer.mem a = ks.toNat) + b.left.count .arm = 1) ∧
    ∀ events₁ scheduled events₂, events = events₁ ++ some (.finish scheduled) :: events₂ →
      scheduled = asked events₁ := by
  have hbalanced : (⟨addTimer s ks msg tick currTick, []⟩ : Beat).Balanced ks := by
    rw [balanced_mk, addTimer_added ks msg tick currTick halloc, addTimer_fired, h0.added, h0.fired]
    simp
  obtain ⟨hb, l, hI⟩ := Beats.run hrun hbalanced ((Inv.initial h0).add ks hlt halloc hmsg)
  constructor
  · have hcount := hI.countP_callback ks
    rw [Beat.Balanced] at hb
    exact ⟨l, hI.list.chain, by omega⟩
  · have hneed' : (addTimer s ks msg tick currTick).needSchedule = false := by
      rw [addTimer, if_neg halloc]
      exact hneed
    intro events₁ scheduled events₂ heq
    exact (asked_of_run hrun hneed').2 events₁ _ events₂ heq scheduled rfl

def beatFrame : Frame := ⟨120, false, none⟩
def beatDue : State := handlerEnter (addTimer sampleState 9 [] 100 20) 120
def beatFired : State := handlerLoop beatDue beatFrame []
def beatArmed : State := addTimer beatFired 9 [] 30 121
def beatAsked : State := { beatArmed with needSchedule := true }
def beatCalled : Frame := ⟨120, true, some 4096⟩
def beatBack : State := callbackReturn beatAsked beatCalled [] 4096

theorem beatDue_frames : beatDue.frames = [beatFrame] := rfl

theorem beatDue_expired : Expired beatDue beatFrame := by decide

theorem beatFired_frames : beatFired.frames = [beatCalled] := by
  rw [beatFired, handlerLoop, if_pos beatDue_expired]
  have hhead : beatDue.timerHead = 4096 := by decide
  rw [hhead]
  rfl

theorem beatArmed_frames : beatArmed.frames = [beatCalled] :=
  (addTimer_frames _ _ _ _ _).trans beatFired_frames

theorem beatBack_frames : beatBack.frames = [{ beatCalled with curr := none }] := rfl

theorem calling_of_called (h : s.frames = [beatCalled]) : s.Calling := by
  rw [State.Calling, h]
  simp [beatCalled]

def beatEnd : Beat := ⟨handlerLoop beatBack { beatCalled with curr := none } [], []⟩

def beatEvents : List (Option Event) := [none, none, none, some .ask, none, some (.finish true)]

theorem beat_run : Trace (Beats 9) ⟨addTimer sampleState 9 [] 100 20, []⟩ beatEvents beatEnd := by
  have h₁ : Trace (Beats 9) ⟨addTimer sampleState 9 [] 100 20, []⟩ [none] ⟨beatDue, []⟩ :=
    Trace.nil.snoc (Beats.enter 120 (calling_of_frames (addTimer_frames ..)) (by decide))
  have h₂ := h₁.snoc (Beats.fire beatDue_frames rfl beatDue_expired)
  have hleft : Left.ofCallback (9 : UInt64).toNat (callback beatFired.mem beatDue.timerHead) = .arm := by
    decide
  rw [show handlerLoop beatDue beatFrame [] = beatFired from rfl, hleft] at h₂
  have h₃ := h₂.snoc (Beats.arm [] 30 121 (calling_of_called beatFired_frames) (by decide)
    (by decide) (by decide) (by rw [Fits]; decide))
  have h₄ := h₃.snoc (Beats.ask (calling_of_called beatArmed_frames))
  have h₅ := h₄.snoc (Beats.ret beatArmed_frames rfl)
  have h₆ := h₅.snoc (Beats.finish beatBack_frames rfl (by decide))
  exact h₆

theorem heartbeat_sample :
    (∃ l, Chain (nextPtr beatEnd.timer.mem) (ptr beatEnd.timer.timerHead) l ∧
      l.countP (fun a => callback beatEnd.timer.mem a = (9 : UInt64).toNat) + beatEnd.left.count .arm = 1) ∧
    ∀ events₁ scheduled events₂, beatEvents = events₁ ++ some (.finish scheduled) :: events₂ →
      scheduled = asked events₁ :=
  heartbeat sampleState_initial rfl (by decide) (by rw [Fits]; decide) (by decide) beat_run

end OscKernel.Timer
