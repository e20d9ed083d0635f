import OscKernel.RingBuffer
import OscKernel.Runs

/-!
# Asynchronous output of the UART

`uart_async_putc` and `uart_irq_tx_handler` of `uart.c` on the ring `tx_buffer`. The handler runs between
any two accesses of a call of `uart_async_putc`, and is not interrupted itself.
-/

namespace OscKernel.Uart

open Relation

def bufferSize : ℕ := 4096
def cr : UInt8 := 13
def lf : UInt8 := 10

/-- The next access of a call of `uart_async_putc` with the character `c`. -/
inductive Putc where
  | idle
  | test (c : UInt8)
  | store (c : UInt8)
  | advance (c : UInt8)
  | storeLf
  | advanceLf
  | accept (c : UInt8)
  | reject

/-- `sent` is what has been written to `AUX_MU_IO_REG`, and `accepted` are the characters of the calls
that have returned `1`. `txIrq` is the bit of `AUX_MU_IER_REG` for the transmit interrupt. -/
structure State where
  ring : RingBuffer UInt8
  txIrq : Bool
  putc : Putc
  sent : List UInt8
  accepted : List UInt8

def uartIrqTxHandler (s : State) : State :=
  if s.ring.Empty then { s with txIrq := false }
  else { s with ring := s.ring.release bufferSize, sent := s.sent ++ [s.ring.slots s.ring.tail] }

def uartAsyncPutc (s : State) : State :=
  match s.putc with
  | .idle => s
  | .test c => { s with putc := if s.ring.Full bufferSize then .reject else .store c }
  | .store c => { s with ring := s.ring.store c, putc := .advance c }
  | .advance c =>
      { s with ring := s.ring.advance bufferSize, putc := if c = cr then .storeLf else .accept c }
  | .storeLf => { s with ring := s.ring.store lf, putc := .advanceLf }
  | .advanceLf => { s with ring := s.ring.advance bufferSize, putc := .accept cr }
  | .accept c => { s with txIrq := true, putc := .idle, accepted := s.accepted ++ [c] }
  | .reject => { s with txIrq := true, putc := .idle }

inductive Step : State → State → Prop
  | call (s : State) (c : UInt8) : s.putc = .idle → Step s { s with putc := .test c }
  | putc (s : State) : Step s (uartAsyncPutc s)
  | irq (s : State) : Step s (uartIrqTxHandler s)

structure State.Initial (s : State) : Prop where
  head : s.ring.head = 0
  tail : s.ring.tail = 0
  putc : s.putc = .idle
  sent : s.sent = []
  accepted : s.accepted = []

def expand (c : UInt8) : List UInt8 := if c = cr then [cr, lf] else [c]

def Putc.done : Putc → List UInt8
  | .storeLf | .advanceLf => [cr]
  | .accept c => expand c
  | _ => []

/-- What has been sent and what is in the ring are the accepted characters, in order. -/
def State.InOrder (s : State) : Prop :=
  s.sent ++ s.ring.contents bufferSize = s.accepted.flatMap expand ++ s.putc.done

def Putc.Ready (r : RingBuffer UInt8) : Putc → Prop
  | .store _ => ¬ r.Full bufferSize
  | .advance c => ¬ r.Full bufferSize ∧ r.slots r.head = c
  | .advanceLf => r.slots r.head = lf
  | _ => True

structure State.Inv (s : State) : Prop where
  ok : s.ring.Ok bufferSize
  ready : s.putc.Ready s.ring
  inOrder : s.InOrder

/-- When the line feed of a carriage return is taken into use, the ring is not full. -/
def State.LfFits (s : State) : Prop := s.putc = .advanceLf → ¬ s.ring.Full bufferSize

variable {s s' : State}

theorem State.Initial.inv (h : s.Initial) : s.Inv where
  ok := ⟨by rw [h.head]; decide, by rw [h.tail]; decide⟩
  ready := by
    rw [h.putc]
    trivial
  inOrder := by
    have hempty : s.ring.Empty := h.head.trans h.tail.symm
    have hok : s.ring.Ok bufferSize := ⟨by rw [h.head]; decide, by rw [h.tail]; decide⟩
    rw [State.InOrder, RingBuffer.contents_empty hok hempty, h.sent, h.accepted, h.putc]
    rfl

theorem Putc.Ready.release {r : RingBuffer UInt8} {p : Putc} (hok : r.Ok bufferSize) (hempty : ¬ r.Empty)
    (h : p.Ready r) : p.Ready (r.release bufferSize) := by
  have hroom := RingBuffer.not_full_release hok hempty
  cases p with
  | store c => exact hroom
  | advance c => exact ⟨hroom, h.2⟩
  | advanceLf => exact h
  | _ => trivial

theorem State.Inv.irq (h : s.Inv) : (uartIrqTxHandler s).Inv := by
  by_cases hempty : s.ring.Empty
  · rw [uartIrqTxHandler, if_pos hempty]
    exact ⟨h.ok, h.ready, h.inOrder⟩
  · rw [uartIrqTxHandler, if_neg hempty]
    refine ⟨h.ok.release, h.ready.release h.ok hempty, ?_⟩
    have horder := h.inOrder
    rw [State.InOrder, RingBuffer.contents_release h.ok hempty] at horder
    rw [State.InOrder, ← horder]
    simp only [List.append_assoc, List.singleton_append]

/-- Taking the slot at the head into use adds its character. -/
theorem State.Inv.advance (h : s.Inv) (hfull : ¬ s.ring.Full bufferSize) {c : UInt8}
    (hslot : s.ring.slots s.ring.head = c) :
    s.sent ++ (s.ring.advance bufferSize).contents bufferSize =
      s.accepted.flatMap expand ++ (s.putc.done ++ [c]) := by
  rw [RingBuffer.contents_advance h.ok hfull, hslot, ← List.append_assoc, h.inOrder, List.append_assoc]

theorem State.Inv.putc (h : s.Inv) (hfits : s.LfFits) : (uartAsyncPutc s).Inv := by
  obtain ⟨hok, hready, horder⟩ := h
  have hinv : s.Inv := ⟨hok, hready, horder⟩
  rw [State.InOrder] at horder
  cases hp : s.putc with
  | idle =>
      simp only [uartAsyncPutc, hp]
      exact hinv
  | test c =>
      simp only [uartAsyncPutc, hp]
      rw [hp] at horder
      by_cases hfull : s.ring.Full bufferSize
      · rw [if_pos hfull]
        exact ⟨hok, trivial, horder⟩
      · rw [if_neg hfull]
        exact ⟨hok, hfull, horder⟩
  | store c =>
      simp only [uartAsyncPutc, hp]
      rw [hp] at hready horder
      refine ⟨hok.store c, ⟨hready, Function.update_self ..⟩, ?_⟩
      rw [State.InOrder, RingBuffer.contents_store hok]
      exact horder
  | advance c =>
      rw [hp] at hready
      have hadd := hinv.advance hready.1 hready.2
      rw [hp] at hadd
      simp only [uartAsyncPutc, hp]
      by_cases hc : c = cr
      · rw [if_pos hc]
        refine ⟨hok.advance, trivial, ?_⟩
        rw [State.InOrder, hadd, hc]
        rfl
      · rw [if_neg hc]
        refine ⟨hok.advance, trivial, ?_⟩
        rw [State.InOrder, hadd]
        simp only [Putc.done, expand, if_neg hc, List.nil_append]
  | storeLf =>
      simp only [uartAsyncPutc, hp]
      rw [hp] at horder
      refine ⟨hok.store lf, Function.update_self .., ?_⟩
      rw [State.InOrder, RingBuffer.contents_store hok]
      exact horder
  | advanceLf =>
      rw [hp] at hready
      have hadd := hinv.advance (hfits hp) hready
      rw [hp] at hadd
      simp only [uartAsyncPutc, hp]
      refine ⟨hok.advance, trivial, ?_⟩
      rw [State.InOrder, hadd]
      rfl
  | accept c =>
      simp only [uartAsyncPutc, hp]
      rw [hp] at horder
      refine ⟨hok, trivial, ?_⟩
      rw [State.InOrder]
      simp only [horder, Putc.done, List.flatMap_append, List.flatMap_singleton, List.append_nil]
  | reject =>
      simp only [uartAsyncPutc, hp]
      rw [hp] at horder
      exact ⟨hok, trivial, horder⟩

theorem State.Inv.step (h : s.Inv) (hfits : s.LfFits) (hstep : Step s s') : s'.Inv := by
  cases hstep with
  | call c hidle =>
      have horder := h.inOrder
      rw [State.InOrder, hidle] at horder
      exact ⟨h.ok, trivial, horder⟩
  | putc => exact h.putc hfits
  | irq => exact h.irq

def FitStep (s s' : State) : Prop := s.LfFits ∧ Step s s'

theorem State.Inv.run (h : s.Inv) (hrun : ReflTransGen FitStep s s') : s'.Inv :=
  Runs.Stable.run (I := State.Inv) (fun _ _ h hstep => h.step hstep.1 hstep.2) h hrun

/-- A line feed that goes into a full ring takes everything with it. -/
theorem State.Inv.advanceLf_iff (h : s.Inv) (hp : s.putc = .advanceLf) :
    (uartAsyncPutc s).InOrder ↔ ¬ s.ring.Full bufferSize := by
  refine ⟨fun horder hfull => ?_, fun hfits => (h.putc fun _ => hfits).inOrder⟩
  have hempty : (s.ring.advance bufferSize).contents bufferSize = [] :=
    RingBuffer.contents_empty h.ok.advance (RingBuffer.advance_full hfull)
  have hold := congrArg List.length h.inOrder
  have hnew := congrArg List.length horder
  simp only [uartAsyncPutc, hp, hempty, Putc.done, expand, if_true, List.length_append,
    RingBuffer.length_contents, List.length_cons, List.length_nil] at hold hnew
  have hcount := RingBuffer.count_full h.ok hfull
  omega

/-- What one call that returns `0` does to the ring. -/
theorem uartAsyncPutc_reject (s : State) :
    (∀ c, s.putc = .test c → s.ring.Full bufferSize →
      (uartAsyncPutc s).ring = s.ring ∧ (uartAsyncPutc s).putc = .reject) ∧
    (s.putc = .reject →
      (uartAsyncPutc s).ring = s.ring ∧ (uartAsyncPutc s).accepted = s.accepted) := by
  refine ⟨fun c hp hfull => ?_, fun hp => ?_⟩
  · simp only [uartAsyncPutc, hp, if_pos hfull, and_self]
  · simp only [uartAsyncPutc, hp, and_self]

/-- In every run in which no line feed goes into a full ring, the accepted characters are sent or wait
in the ring, in order. The first line feed that does breaks that. -/
theorem uart_tx_in_order (h0 : s.Initial) (hrun : ReflTransGen FitStep s s') :
    s'.InOrder ∧
      (s'.putc = .idle →
        s'.sent ++ s'.ring.contents bufferSize = s'.accepted.flatMap expand) ∧
      (s'.ring.contents bufferSize).length ≤ bufferSize - 1 ∧
      (∀ c, s'.putc = .test c → s'.ring.Full bufferSize →
        (uartAsyncPutc s').ring = s'.ring ∧ (uartAsyncPutc s').putc = .reject) ∧
      (s'.putc = .reject →
        (uartAsyncPutc s').ring = s'.ring ∧ (uartAsyncPutc s').accepted = s'.accepted) ∧
      (s'.putc = .advanceLf → ((uartAsyncPutc s').InOrder ↔ s'.LfFits)) := by
  have hinv := h0.inv.run hrun
  obtain ⟨hfull, hreject⟩ := uartAsyncPutc_reject s'
  refine ⟨hinv.inOrder, fun hidle => ?_, ?_, hfull, hreject, fun hp => ?_⟩
  · have horder := hinv.inOrder
    rw [State.InOrder, hidle] at horder
    exact horder.trans (List.append_nil _)
  · rw [RingBuffer.length_contents]
    have hcount := RingBuffer.count_lt hinv.ok
    omega
  · rw [hinv.advanceLf_iff hp]
    exact ⟨fun hfits _ => hfits, fun hfits => hfits hp⟩

def State.blank : State := ⟨⟨fun _ => 0, 0, 0⟩, false, .idle, [], []⟩

theorem State.blank_initial : State.blank.Initial := ⟨rfl, rfl, rfl, rfl, rfl⟩

/-- Accesses of one call that all find room. -/
theorem putc_accesses (k : ℕ) (hroom : ∀ i < k, ¬ (uartAsyncPutc^[i] s).ring.Full bufferSize) :
    ReflTransGen FitStep s (uartAsyncPutc^[k] s) := by
  induction k with
  | zero => exact .refl
  | succ k ih =>
      have hfits : (uartAsyncPutc^[k] s).LfFits := fun _ => hroom k k.lt_succ_self
      rw [Function.iterate_succ_apply']
      exact (ih fun i hi => hroom i (hi.trans k.lt_succ_self)).tail ⟨hfits, Step.putc _⟩

/-- The call with `c` in a ring with room, with its `k` accesses. -/
theorem putc_call (c : UInt8) (k : ℕ) (hidle : s.putc = .idle)
    (hroom : ∀ i < k, ¬ (uartAsyncPutc^[i] { s with putc := .test c }).ring.Full bufferSize) :
    ReflTransGen FitStep s (uartAsyncPutc^[k] { s with putc := .test c }) := by
  have hfits : s.LfFits := fun hlf => absurd (hidle.symm.trans hlf) nofun
  exact (ReflTransGen.single ⟨hfits, Step.call s c hidle⟩).trans (putc_accesses k hroom)

/-- A letter and a carriage return are accepted, with the handler between the two calls. -/
def State.twoCalls : State :=
  let first := uartAsyncPutc^[4] { State.blank with putc := .test 97 }
  uartAsyncPutc^[6] { uartIrqTxHandler first with putc := .test cr }

theorem State.twoCalls_run : ReflTransGen FitStep State.blank State.twoCalls := by
  have hfirst : ReflTransGen FitStep State.blank (uartAsyncPutc^[4] { State.blank with putc := .test 97 }) :=
    putc_call 97 4 rfl (by decide)
  exact (hfirst.tail ⟨nofun, Step.irq _⟩).trans (putc_call cr 6 rfl (by decide))

/-- The letter is sent, and the two bytes of the carriage return wait. -/
theorem uart_tx_in_order_twoCalls :
    State.twoCalls.sent = [97] ∧ State.twoCalls.ring.contents bufferSize = [cr, lf] ∧
      State.twoCalls.accepted = [97, cr] ∧
      State.twoCalls.sent ++ State.twoCalls.ring.contents bufferSize =
        State.twoCalls.accepted.flatMap expand :=
  ⟨by decide, by decide, by decide,
    (uart_tx_in_order State.blank_initial State.twoCalls_run).2.1 rfl⟩

/-- A call that is not interrupted puts a character that is no carriage return into a ring with room. -/
theorem putc_run {c : UInt8} (hc : c ≠ cr) (hidle : s.putc = .idle) (hfull : ¬ s.ring.Full bufferSize) :
    ReflTransGen Step s ⟨(s.ring.store c).advance bufferSize, true, .idle, s.sent, s.accepted ++ [c]⟩ := by
  obtain ⟨ring, txIrq, putc, sent, accepted⟩ := s
  subst hidle
  have h₁ := (ReflTransGen.single (Step.call ⟨ring, txIrq, .idle, sent, accepted⟩ c rfl)).tail
    (Step.putc _)
  simp only [uartAsyncPutc, if_neg hfull] at h₁
  have h₂ := (h₁.tail (Step.putc _)).tail (Step.putc _)
  simp only [uartAsyncPutc, if_neg hc] at h₂
  exact h₂.tail (Step.putc _)

def letterA : UInt8 := 97

/-- As many letters as leave one slot free at the end. -/
theorem letters_run (k : ℕ) (hk : k < bufferSize) :
    ∃ s, ReflTransGen Step State.blank s ∧ s.ring.head = k ∧ s.ring.tail = 0 ∧ s.putc = .idle ∧
      s.sent = [] ∧ s.accepted.length = k := by
  induction k with
  | zero => exact ⟨State.blank, .refl, rfl, rfl, rfl, rfl, rfl⟩
  | succ k ih =>
      obtain ⟨s, hrun, hhead, htail, hidle, hsent, hlen⟩ := ih (by omega)
      have hnext : RingBuffer.next bufferSize k = k + 1 := Nat.mod_eq_of_lt hk
      have hfull : ¬ s.ring.Full bufferSize := by
        rw [RingBuffer.Full, hhead, htail, hnext]
        omega
      have hletter : letterA ≠ cr := by decide
      refine ⟨_, hrun.trans (putc_run hletter hidle hfull), ?_, htail, rfl, hsent, ?_⟩
      · change RingBuffer.next bufferSize s.ring.head = k + 1
        rw [hhead, hnext]
      · rw [List.length_append, hlen]
        rfl

/-- After `bufferSize - 2` letters a carriage return is accepted, and nothing is left in the ring. -/
theorem uart_tx_loses_all :
    ∃ s, State.blank.Initial ∧ ReflTransGen Step State.blank s ∧ s.putc = .idle ∧ s.sent = [] ∧
      s.ring.contents bufferSize = [] ∧ s.accepted.length = bufferSize - 1 ∧
      s.sent ++ s.ring.contents bufferSize ≠ s.accepted.flatMap expand := by
  obtain ⟨⟨⟨slots, head, tail⟩, txIrq, putc, sent, accepted⟩, hrun, hhead, htail, hidle, hsent, hlen⟩ :=
    letters_run (bufferSize - 2) (by decide)
  simp only at hhead htail hidle hsent hlen
  subst hhead htail hidle hsent
  have h₁ := (hrun.tail (Step.call _ cr rfl)).tail (Step.putc _)
  have hfull : ¬ RingBuffer.Full bufferSize ⟨slots, bufferSize - 2, 0⟩ :=
    (by decide : RingBuffer.next bufferSize (bufferSize - 2) ≠ 0)
  have hwrap : RingBuffer.next bufferSize (RingBuffer.next bufferSize (bufferSize - 2)) = 0 := by decide
  have hzero : (0 : ℕ) < bufferSize := by decide
  simp only [uartAsyncPutc, if_neg hfull] at h₁
  have h₂ := (h₁.tail (Step.putc _)).tail (Step.putc _)
  simp only [uartAsyncPutc, if_true] at h₂
  have h₃ := ((h₂.tail (Step.putc _)).tail (Step.putc _)).tail (Step.putc _)
  simp only [uartAsyncPutc] at h₃
  have hnone : RingBuffer.contents bufferSize
      ((((RingBuffer.mk slots (bufferSize - 2) 0).store cr).advance bufferSize).store lf |>.advance
        bufferSize) = [] :=
    RingBuffer.contents_empty ⟨hwrap.trans_lt hzero, hzero⟩ hwrap
  refine ⟨_, State.blank_initial, h₃, rfl, rfl, hnone, ?_, ?_⟩
  · rw [List.length_append, hlen]
    rfl
  · rw [hnone]
    simp only [List.nil_append, List.flatMap_append, List.flatMap_singleton, expand, if_true]
    exact fun hnil => List.cons_ne_nil _ _ (List.append_eq_nil_iff.1 hnil.symm).2

end OscKernel.Uart
