import OscKernel.Uart

/-!
# Asynchronous input of the UART

`uart_async_getc` and `uart_irq_rx_handler` of `uart.c` on the ring `rx_buffer`. The handler runs between
any two accesses of a call of `uart_async_getc`, while its interrupt is enabled and the hardware FIFO
holds a byte, and is not interrupted itself.
-/

namespace OscKernel.UartRx

open Relation
open Uart (bufferSize)

/-- The next access of a call of `uart_async_getc`: `load` and `advance` follow a test that found a byte
in the ring, and `enable` one that did not. -/
inductive Getc where
  | idle
  | test
  | load
  | advance (c : UInt8)
  | enable

/-- `fifo` is the hardware FIFO, and `taken` what the handler has read from it. `rxIrq` is the bit of
`AUX_MU_IER_REG` for the receive interrupt. A call returns with its last access: `returned` are the
characters of the calls that have returned `1`. -/
structure State where
  ring : RingBuffer UInt8
  rxIrq : Bool
  getc : Getc
  fifo : List UInt8
  taken : List UInt8
  returned : List UInt8

def uartDisableRxIrq (s : State) : State := { s with rxIrq := false }

def uartIrqRxHandler (s : State) : State :=
  match s.fifo with
  | [] => s
  | c :: rest =>
      if s.ring.Full bufferSize then uartDisableRxIrq s
      else { s with ring := (s.ring.store c).advance bufferSize, fifo := rest, taken := s.taken ++ [c] }

def uartAsyncGetc (s : State) : State :=
  match s.getc with
  | .idle => s
  | .test => { s with getc := if s.ring.Empty then .enable else .load }
  | .load => { s with getc := .advance (s.ring.slots s.ring.tail) }
  | .advance c =>
      { s with ring := s.ring.release bufferSize, getc := .idle, returned := s.returned ++ [c] }
  | .enable => { s with rxIrq := true, getc := .idle }

inductive Step : State → State → Prop
  | call (s : State) : s.getc = .idle → Step s { s with getc := .test }
  | getc (s : State) : Step s (uartAsyncGetc s)
  | irq (s : State) : s.rxIrq = true → s.fifo ≠ [] → Step s (uartIrqRxHandler s)
  | arrive (s : State) (c : UInt8) : Step s { s with fifo := s.fifo ++ [c] }

structure State.Initial (s : State) : Prop where
  head : s.ring.head = 0
  tail : s.ring.tail = 0
  getc : s.getc = .idle
  rxIrq : s.rxIrq = true
  taken : s.taken = []
  returned : s.returned = []

def State.InOrder (s : State) : Prop := s.returned ++ s.ring.contents bufferSize = s.taken

def Getc.Ready (r : RingBuffer UInt8) : Getc → Prop
  | .load => ¬ r.Empty
  | .advance c => ¬ r.Empty ∧ r.slots r.tail = c
  | _ => True

structure State.Inv (s : State) : Prop where
  ok : s.ring.Ok bufferSize
  ready : s.getc.Ready s.ring
  inOrder : s.InOrder

variable {s s' s'' : State}

theorem State.Initial.inv (h : s.Initial) : s.Inv := by
  have hempty : s.ring.Empty := h.head.trans h.tail.symm
  have hok : s.ring.Ok bufferSize := ⟨by rw [h.head]; decide, by rw [h.tail]; decide⟩
  refine ⟨hok, ?_, ?_⟩
  · rw [h.getc]
    trivial
  · rw [State.InOrder, RingBuffer.contents_empty hok hempty, h.returned, h.taken]
    rfl

/-- A byte put into a ring that is not full leaves what a waiting call knows. -/
theorem Getc.Ready.insert {r : RingBuffer UInt8} {g : Getc} (hok : r.Ok bufferSize)
    (hfull : ¬ r.Full bufferSize) (c : UInt8) (h : g.Ready r) :
    g.Ready ((r.store c).advance bufferSize) := by
  have hempty : ¬ ((r.store c).advance bufferSize).Empty := by
    intro he
    have hnone := RingBuffer.contents_empty (hok.store c).advance he
    rw [RingBuffer.contents_advance (hok.store c) hfull] at hnone
    exact List.append_ne_nil_of_right_ne_nil _ (List.cons_ne_nil _ _) hnone
  cases g with
  | load => exact hempty
  | advance d =>
      refine ⟨hempty, ?_⟩
      have hne : r.tail ≠ r.head := fun he => h.1 he.symm
      exact (Function.update_of_ne hne ..).trans h.2
  | _ => trivial

theorem State.Inv.irq (h : s.Inv) : (uartIrqRxHandler s).Inv := by
  cases hf : s.fifo with
  | nil =>
      simp only [uartIrqRxHandler, hf]
      exact h
  | cons c rest =>
      simp only [uartIrqRxHandler, hf]
      by_cases hfull : s.ring.Full bufferSize
      · rw [if_pos hfull]
        exact ⟨h.ok, h.ready, h.inOrder⟩
      · rw [if_neg hfull]
        refine ⟨(h.ok.store c).advance, h.ready.insert h.ok hfull c, ?_⟩
        have hslot : (s.ring.store c).slots (s.ring.store c).head = c := Function.update_self ..
        have hadd := RingBuffer.contents_advance (h.ok.store c) hfull
        rw [hslot, RingBuffer.contents_store h.ok] at hadd
        rw [State.InOrder, hadd, ← List.append_assoc, h.inOrder]

theorem State.Inv.getc (h : s.Inv) : (uartAsyncGetc s).Inv := by
  obtain ⟨hok, hready, horder⟩ := h
  rw [State.InOrder] at horder
  cases hg : s.getc with
  | idle =>
      simp only [uartAsyncGetc, hg]
      exact ⟨hok, hready, horder⟩
  | test =>
      simp only [uartAsyncGetc, hg]
      by_cases hempty : s.ring.Empty
      · rw [if_pos hempty]
        exact ⟨hok, trivial, horder⟩
      · rw [if_neg hempty]
        exact ⟨hok, hempty, horder⟩
  | load =>
      simp only [uartAsyncGetc, hg]
      rw [hg] at hready
      exact ⟨hok, ⟨hready, rfl⟩, horder⟩
  | advance c =>
      simp only [uartAsyncGetc, hg]
      rw [hg] at hready
      refine ⟨hok.release, trivial, ?_⟩
      rw [RingBuffer.contents_release hok hready.1, hready.2] at horder
      rw [State.InOrder, ← horder, List.append_assoc]
      rfl
  | enable =>
      simp only [uartAsyncGetc, hg]
      exact ⟨hok, trivial, horder⟩

theorem State.Inv.step (h : s.Inv) (hstep : Step s s') : s'.Inv := by
  cases hstep with
  | call _ => exact ⟨h.ok, trivial, h.inOrder⟩
  | getc => exact h.getc
  | irq _ _ => exact h.irq
  | arrive c => exact ⟨h.ok, h.ready, h.inOrder⟩

theorem State.Inv.run (h : s.Inv) (hrun : ReflTransGen Step s s') : s'.Inv :=
  Runs.Stable.run (fun _ _ h hstep => h.step hstep) h hrun

def QuietStep (s s' : State) : Prop := Step s s' ∧ (s.getc = .enable → s'.getc = .enable)

/-- The handler turned its interrupt off on a full ring, and since then no call that found the ring
empty has returned. -/
def OffSinceFull (s₀ s : State) : Prop :=
  ∃ s₁, ReflTransGen Step s₀ s₁ ∧ s₁.ring.Full bufferSize ∧ s₁.rxIrq = true ∧ s₁.fifo ≠ [] ∧
    ReflTransGen QuietStep (uartIrqRxHandler s₁) s

/-- A step that turns the interrupt off is a run of the handler on a full ring. -/
theorem Step.turns_off (hstep : Step s s') (hon : s.rxIrq = true) (hoff : s'.rxIrq = false) :
    s.ring.Full bufferSize ∧ s.fifo ≠ [] ∧ s' = uartIrqRxHandler s := by
  cases hstep with
  | call _ => exact absurd (hon.symm.trans hoff) (by decide)
  | getc =>
      cases hg : s.getc <;> simp [uartAsyncGetc, hg, hon] at hoff
  | irq _ hfifo =>
      refine ⟨?_, hfifo, rfl⟩
      by_contra hfull
      obtain ⟨c, rest, hf⟩ := List.exists_cons_of_ne_nil hfifo
      simp only [uartIrqRxHandler, hf, if_neg hfull] at hoff
      exact absurd (hon.symm.trans hoff) (by decide)
  | arrive c => exact absurd (hon.symm.trans hoff) (by decide)

/-- A step that leaves the interrupt off is quiet. -/
theorem Step.quiet (hstep : Step s s') (hoff : s'.rxIrq = false) : QuietStep s s' := by
  refine ⟨hstep, fun hg => ?_⟩
  cases hstep with
  | call hidle => exact absurd (hg.symm.trans hidle) nofun
  | getc =>
      simp only [uartAsyncGetc, hg] at hoff
      exact absurd hoff (by decide)
  | irq _ _ =>
      unfold uartIrqRxHandler
      split
      · exact hg
      · split_ifs
        · exact hg
        · exact hg
  | arrive c => exact hg

theorem offSinceFull (hon : s.rxIrq = true) (hrun : ReflTransGen Step s s')
    (hoff : s'.rxIrq = false) : OffSinceFull s s' := by
  induction hrun with
  | refl => exact absurd (hon.symm.trans hoff) (by decide)
  | @tail t t' hrun hstep ih =>
      cases ht : t.rxIrq with
      | false =>
          obtain ⟨s₁, h₁, hfull, hirq, hfifo, hquiet⟩ := ih ht
          exact ⟨s₁, h₁, hfull, hirq, hfifo, hquiet.tail (hstep.quiet hoff)⟩
      | true =>
          obtain ⟨hfull, hfifo, rfl⟩ := hstep.turns_off ht hoff
          exact ⟨t, hrun, hfull, ht, hfifo, ReflTransGen.refl⟩

/-- A handler run that finds no room leaves the byte and turns its interrupt off, and one that finds room
takes it. -/
theorem uartIrqRxHandler_serves (hok : s.ring.Ok bufferSize) (hon : s.rxIrq = true) {c : UInt8}
    {rest : List UInt8} (hfifo : s.fifo = c :: rest) :
    ((uartIrqRxHandler s).fifo = s.fifo ↔ (s.ring.contents bufferSize).length = bufferSize - 1) ∧
      ((uartIrqRxHandler s).rxIrq = false ↔ (s.ring.contents bufferSize).length = bufferSize - 1) ∧
      ((s.ring.contents bufferSize).length ≠ bufferSize - 1 →
        (uartIrqRxHandler s).fifo = rest ∧ (uartIrqRxHandler s).taken = s.taken ++ [c] ∧
          (uartIrqRxHandler s).ring.contents bufferSize = s.ring.contents bufferSize ++ [c]) := by
  rw [RingBuffer.length_contents]
  by_cases hfull : s.ring.Full bufferSize
  · have hcount := RingBuffer.count_full hok hfull
    have hlen : s.ring.count bufferSize = bufferSize - 1 := by omega
    simp only [uartIrqRxHandler, hfifo, if_pos hfull]
    exact ⟨iff_of_true hfifo hlen, iff_of_true rfl hlen, fun hne => absurd hlen hne⟩
  · have hcount := RingBuffer.count_advance hok hfull
    have hlt := RingBuffer.count_lt hok.advance
    have hsize : bufferSize = 4096 := rfl
    have hlen : s.ring.count bufferSize ≠ bufferSize - 1 := by omega
    have hslot : (s.ring.store c).slots (s.ring.store c).head = c := Function.update_self ..
    have hadd := RingBuffer.contents_advance (hok.store c) hfull
    rw [hslot, RingBuffer.contents_store hok] at hadd
    simp only [uartIrqRxHandler, hfifo, if_neg hfull]
    have hirq : ¬ s.rxIrq = false := by
      rw [hon]
      decide
    have hleft : rest ≠ c :: rest := (List.cons_ne_self c rest).symm
    exact ⟨iff_of_false hleft hlen, iff_of_false hirq hlen, fun _ => ⟨trivial, trivial, hadd⟩⟩

/-- What the accesses of a call of `uart_async_getc` do: the test tells whether there is a byte, the call
returns `1` with the oldest byte of the ring, and `0` with nothing taken. -/
theorem State.Inv.getc_returns (h : s.Inv) :
    (s.getc = .test →
      (uartAsyncGetc s).getc = if s.ring.contents bufferSize = [] then .enable else .load) ∧
      (s.getc = .load → ∃ c rest, s.ring.contents bufferSize = c :: rest ∧
        (uartAsyncGetc s).getc = .advance c) ∧
      (∀ c, s.getc = .advance c → ∃ rest, s.ring.contents bufferSize = c :: rest ∧
        (uartAsyncGetc s).ring.contents bufferSize = rest ∧
        (uartAsyncGetc s).returned = s.returned ++ [c] ∧ (uartAsyncGetc s).getc = .idle) ∧
      (s.getc = .enable → (uartAsyncGetc s).ring = s.ring ∧
        (uartAsyncGetc s).returned = s.returned ∧ (uartAsyncGetc s).rxIrq = true ∧
        (uartAsyncGetc s).getc = .idle) := by
  have hready := h.ready
  refine ⟨fun hg => ?_, fun hg => ?_, fun c hg => ?_, fun hg => ?_⟩
  · simp only [uartAsyncGetc, hg]
    by_cases hempty : s.ring.Empty
    · rw [if_pos hempty, if_pos (RingBuffer.contents_empty h.ok hempty)]
    · rw [if_neg hempty, if_neg]
      rw [RingBuffer.contents_release h.ok hempty]
      exact List.cons_ne_nil _ _
  · rw [hg] at hready
    simp only [uartAsyncGetc, hg]
    exact ⟨_, _, RingBuffer.contents_release h.ok hready, rfl⟩
  · rw [hg] at hready
    have hfirst := RingBuffer.contents_release h.ok hready.1
    rw [hready.2] at hfirst
    simp only [uartAsyncGetc, hg]
    exact ⟨_, hfirst, rfl, trivial, trivial⟩
  · simp only [uartAsyncGetc, hg, and_self]

/-- In every run the receive ring loses and repeats nothing. The handler leaves the byte and turns its
interrupt off exactly when the ring has no room, and takes the byte otherwise. A call returns the oldest
byte, or that there is none. The interrupt stays off at most until a call that found the ring empty
returns. -/
theorem uart_rx_fifo (h0 : s.Initial) (hrun : ReflTransGen Step s s') :
    s'.returned ++ s'.ring.contents bufferSize = s'.taken ∧
      (s'.rxIrq = true → ∀ c rest, s'.fifo = c :: rest →
        ((uartIrqRxHandler s').fifo = s'.fifo ↔ (s'.ring.contents bufferSize).length = bufferSize - 1) ∧
        ((uartIrqRxHandler s').rxIrq = false ↔
          (s'.ring.contents bufferSize).length = bufferSize - 1) ∧
        ((s'.ring.contents bufferSize).length ≠ bufferSize - 1 →
          (uartIrqRxHandler s').fifo = rest ∧ (uartIrqRxHandler s').taken = s'.taken ++ [c] ∧
            (uartIrqRxHandler s').ring.contents bufferSize = s'.ring.contents bufferSize ++ [c])) ∧
      ((s'.getc = .test →
          (uartAsyncGetc s').getc = if s'.ring.contents bufferSize = [] then .enable else .load) ∧
        (s'.getc = .load → ∃ c rest, s'.ring.contents bufferSize = c :: rest ∧
          (uartAsyncGetc s').getc = .advance c) ∧
        (∀ c, s'.getc = .advance c → ∃ rest, s'.ring.contents bufferSize = c :: rest ∧
          (uartAsyncGetc s').ring.contents bufferSize = rest ∧
          (uartAsyncGetc s').returned = s'.returned ++ [c] ∧ (uartAsyncGetc s').getc = .idle) ∧
        (s'.getc = .enable → (uartAsyncGetc s').ring = s'.ring ∧
          (uartAsyncGetc s').returned = s'.returned ∧ (uartAsyncGetc s').rxIrq = true ∧
          (uartAsyncGetc s').getc = .idle)) ∧
      (s'.rxIrq = false → OffSinceFull s s') := by
  have hinv := h0.inv.run hrun
  refine ⟨hinv.inOrder, fun hon c rest hfifo => ?_, hinv.getc_returns, offSinceFull h0.rxIrq hrun⟩
  exact uartIrqRxHandler_serves hinv.ok hon hfifo

def State.blank : State := ⟨⟨fun _ => 0, 0, 0⟩, true, .idle, [], [], []⟩

theorem State.blank_initial : State.blank.Initial := ⟨rfl, rfl, rfl, rfl, rfl, rfl⟩

/-- A byte that arrives and is taken into a ring with room. -/
theorem Step.takes (hon : s.rxIrq = true) (hfifo : s.fifo = []) (c : UInt8) :
    ReflTransGen Step s (uartIrqRxHandler { s with fifo := [c] }) := by
  have harrive : Step s { s with fifo := [c] } := by
    have hstep := Step.arrive s c
    rwa [hfifo, List.nil_append] at hstep
  exact (ReflTransGen.single harrive).tail (Step.irq _ hon (List.cons_ne_nil _ _))

/-- A call that is not interrupted, up to the return of a byte. -/
theorem Step.getcCall (hidle : s.getc = .idle) :
    ReflTransGen Step s (uartAsyncGetc (uartAsyncGetc (uartAsyncGetc { s with getc := .test }))) :=
  (((ReflTransGen.single (Step.call s hidle)).tail (Step.getc _)).tail (Step.getc _)).tail (Step.getc _)

/-- Two bytes are taken, one call returns the first of them, and another call has found the second when a
third byte is in the hardware FIFO. -/
def State.midCall : State :=
  let one := uartIrqRxHandler { State.blank with fifo := [65] }
  let two := uartIrqRxHandler { one with fifo := [66] }
  let read := uartAsyncGetc (uartAsyncGetc (uartAsyncGetc { two with getc := .test }))
  uartAsyncGetc { read with getc := .test, fifo := [67] }

theorem State.midCall_run : ReflTransGen Step State.blank State.midCall := by
  have htwo := (Step.takes (s := State.blank) rfl rfl 65).trans (Step.takes rfl rfl 66)
  have hread := htwo.trans (Step.getcCall rfl)
  exact ((hread.tail (Step.arrive _ 67)).tail (Step.call _ rfl)).tail (Step.getc _)

theorem uart_rx_fifo_midCall :
    State.midCall.returned = [65] ∧ State.midCall.returned ++ [66] = State.midCall.taken ∧
      (uartIrqRxHandler State.midCall).fifo = [] ∧
      (uartIrqRxHandler State.midCall).ring.contents bufferSize = [66] ++ [67] ∧
      ∃ c rest, [66] = c :: rest ∧ (uartAsyncGetc State.midCall).getc = .advance c := by
  obtain ⟨horder, hserve, ⟨-, hload, -⟩, -⟩ := uart_rx_fifo State.blank_initial State.midCall_run
  obtain ⟨-, -, htake⟩ := hserve rfl 67 [] rfl
  have hring : State.midCall.ring.contents bufferSize = [66] := by decide
  rw [hring] at horder htake hload
  obtain ⟨hfifo, -, hcontents⟩ := htake (by decide)
  exact ⟨by decide, horder, hfifo, hcontents, hload rfl⟩

end OscKernel.UartRx
