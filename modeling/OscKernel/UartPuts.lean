import OscKernel.Uart

/-!
# Strings on the UART

`uart_async_puts` and `uart_puts` of `uart.c` on the bytes of a string in front of its end. Both functions
write a carriage return before a line feed, and `uart_async_putc` writes a line feed after a carriage
return. So they agree on the strings without a line feed only.
-/

namespace OscKernel.Uart

open Relation

variable {s s' : State} {c : UInt8} {text : List UInt8}

/-- A whole call of `uart_async_putc`, with what it returns. -/
def uartAsyncPutcCall (s : State) (c : UInt8) : State × Bool :=
  if s.ring.Full bufferSize then ({ s with txIrq := true }, false)
  else
    let first := (s.ring.store c).advance bufferSize
    let ring := if c = cr then (first.store lf).advance bufferSize else first
    ({ s with ring, txIrq := true, accepted := s.accepted ++ [c] }, true)

/-- The call is a run of the accesses one by one. -/
theorem uartAsyncPutcCall_run (hidle : s.putc = .idle) (c : UInt8) :
    ReflTransGen Step s (uartAsyncPutcCall s c).1 ∧ (uartAsyncPutcCall s c).1.putc = .idle := by
  obtain ⟨ring, txIrq, putc, sent, accepted⟩ := s
  subst hidle
  have hcall := ReflTransGen.single (Step.call ⟨ring, txIrq, .idle, sent, accepted⟩ c rfl)
  by_cases hfull : ring.Full bufferSize
  · have h₁ := hcall.tail (Step.putc _)
    simp only [uartAsyncPutc, if_pos hfull] at h₁
    rw [uartAsyncPutcCall, if_pos hfull]
    exact ⟨h₁.tail (Step.putc _), rfl⟩
  rw [uartAsyncPutcCall, if_neg hfull]
  by_cases hc : c = cr
  · subst hc
    have h₁ := hcall.tail (Step.putc _)
    simp only [uartAsyncPutc, if_neg hfull] at h₁
    have h₂ := (h₁.tail (Step.putc _)).tail (Step.putc _)
    simp only [uartAsyncPutc, if_true] at h₂
    have h₃ := (h₂.tail (Step.putc _)).tail (Step.putc _)
    simp only [uartAsyncPutc] at h₃
    exact ⟨h₃.tail (Step.putc _), rfl⟩
  · simp only [if_neg hc, and_true]
    exact putc_run hc rfl hfull

def ifAccepted (r : State × Bool) (go : State → State × Bool) : State × Bool := if r.2 then go r.1 else r

def uartAsyncPuts (s : State) : List UInt8 → State × Bool
  | [] => (s, true)
  | c :: text =>
      if c = lf then
        ifAccepted (uartAsyncPutcCall s cr) fun s =>
          ifAccepted (uartAsyncPutcCall s lf) fun s => uartAsyncPuts s text
      else ifAccepted (uartAsyncPutcCall s c) fun s => uartAsyncPuts s text

theorem ifAccepted_true {r : State × Bool} {go : State → State × Bool} (h : (ifAccepted r go).2 = true) :
    r.2 = true ∧ ifAccepted r go = go r.1 := by
  obtain ⟨s, ret⟩ := r
  cases ret with
  | false => cases h
  | true => exact ⟨rfl, rfl⟩

def uartPuts : List UInt8 → List UInt8
  | [] => []
  | c :: text => if c = lf then cr :: lf :: uartPuts text else c :: uartPuts text

/-- `uart_async_puts` returns `1` and appends what `uart_puts` writes. -/
def PutsAgree (s : State) (text : List UInt8) : Prop :=
  (uartAsyncPuts s text).2 = true ∧
    (uartAsyncPuts s text).1.ring.contents bufferSize = s.ring.contents bufferSize ++ uartPuts text

theorem uartPuts_plain (hlf : lf ∉ text) : uartPuts text = text := by
  induction text with
  | nil => rfl
  | cons c text ih =>
      obtain ⟨hc, htext⟩ := not_or.1 fun h => hlf (List.mem_cons.2 h)
      rw [uartPuts, if_neg (Ne.symm hc), ih htext]

/-- Every line feed is at least one byte of the output. -/
theorem count_le_uartPuts (text : List UInt8) : text.count lf ≤ (uartPuts text).length := by
  induction text with
  | nil => exact le_rfl
  | cons c text ih =>
      rw [uartPuts]
      by_cases hc : c = lf
      · rw [hc, List.count_cons_self, if_pos rfl, List.length_cons, List.length_cons]
        omega
      · rw [List.count_cons_of_ne hc, if_neg hc, List.length_cons]
        omega

def width (c : UInt8) : ℕ := if c = cr then 2 else 1

structure Moved (s s' : State) (k : ℕ) : Prop where
  ok : s'.ring.Ok bufferSize
  head : s'.ring.head = (s.ring.head + k) % bufferSize
  tail : s'.ring.tail = s.ring.tail

theorem Moved.refl (hok : s.ring.Ok bufferSize) : Moved s s 0 :=
  ⟨hok, (Nat.mod_eq_of_lt hok.head).symm, rfl⟩

theorem Moved.trans {s₁ : State} {j k : ℕ} (h : Moved s s₁ j) (h' : Moved s₁ s' k) :
    Moved s s' (j + k) where
  ok := h'.ok
  head := by rw [h'.head, h.head, Nat.mod_add_mod, Nat.add_assoc]
  tail := h'.tail.trans h.tail

theorem uartAsyncPutcCall_moved (hok : s.ring.Ok bufferSize) (hret : (uartAsyncPutcCall s c).2 = true) :
    Moved s (uartAsyncPutcCall s c).1 (width c) := by
  by_cases hfull : s.ring.Full bufferSize
  · rw [uartAsyncPutcCall, if_pos hfull] at hret
    cases hret
  rw [uartAsyncPutcCall, if_neg hfull, width]
  by_cases hc : c = cr
  · simp only [if_pos hc]
    refine ⟨((hok.store c).advance.store lf).advance, ?_, rfl⟩
    change ((s.ring.head + 1) % bufferSize + 1) % bufferSize = _
    rw [Nat.mod_add_mod]
  · simp only [if_neg hc]
    exact ⟨(hok.store c).advance, rfl, rfl⟩

theorem uartAsyncPuts_moved (hok : s.ring.Ok bufferSize) (hcr : cr ∉ text)
    (hret : (uartAsyncPuts s text).2 = true) :
    Moved s (uartAsyncPuts s text).1 ((uartPuts text).length + text.count lf) := by
  induction text generalizing s with
  | nil => exact Moved.refl hok
  | cons c text ih =>
      obtain ⟨hc, htext⟩ := not_or.1 fun h => hcr (List.mem_cons.2 h)
      rw [uartAsyncPuts] at hret ⊢
      rw [uartPuts]
      by_cases hlf : c = lf
      · rw [if_pos hlf] at hret ⊢
        obtain ⟨hret₁, heq₁⟩ := ifAccepted_true hret
        rw [heq₁] at hret ⊢
        obtain ⟨hret₂, heq₂⟩ := ifAccepted_true hret
        rw [heq₂] at hret ⊢
        have hmoved := uartAsyncPutcCall_moved hok hret₁
        have hpair := hmoved.trans (uartAsyncPutcCall_moved hmoved.ok hret₂)
        have hwidth : width cr + width lf = 3 := by decide
        have hlen : (cr :: lf :: uartPuts text).length + (text.count lf + 1) =
            width cr + width lf + ((uartPuts text).length + text.count lf) := by
          rw [hwidth, List.length_cons, List.length_cons]
          omega
        rw [if_pos hlf, hlf, List.count_cons_self, hlen]
        exact hpair.trans (ih hpair.ok htext hret)
      · rw [if_neg hlf] at hret ⊢
        obtain ⟨hret₁, heq₁⟩ := ifAccepted_true hret
        rw [heq₁] at hret ⊢
        have hmoved := uartAsyncPutcCall_moved hok hret₁
        have hwidth : width c = 1 := if_neg (Ne.symm hc)
        have hlen : (c :: uartPuts text).length + text.count lf =
            width c + ((uartPuts text).length + text.count lf) := by
          rw [hwidth, List.length_cons]
          omega
        rw [if_neg hlf, List.count_cons_of_ne hlf, hlen]
        exact hmoved.trans (ih hmoved.ok htext hret)

def State.push (s : State) (c : UInt8) : State :=
  { s with ring := (s.ring.store c).advance bufferSize, txIrq := true, accepted := s.accepted ++ [c] }

theorem push_contents (hok : s.ring.Ok bufferSize) (hfull : ¬ s.ring.Full bufferSize) (c : UInt8) :
    (s.push c).ring.contents bufferSize = s.ring.contents bufferSize ++ [c] := by
  have hstored : (s.ring.store c).contents bufferSize = s.ring.contents bufferSize :=
    RingBuffer.contents_store hok c
  have hslot : (s.ring.store c).slots (s.ring.store c).head = c := Function.update_self ..
  rw [State.push, RingBuffer.contents_advance (hok.store c) hfull, hstored, hslot]

theorem uartAsyncPuts_plain (hok : s.ring.Ok bufferSize) (hcr : cr ∉ text) (hlf : lf ∉ text)
    (hroom : s.ring.count bufferSize + text.length < bufferSize) :
    (uartAsyncPuts s text).2 = true ∧
      (uartAsyncPuts s text).1.ring.contents bufferSize = s.ring.contents bufferSize ++ text := by
  induction text generalizing s with
  | nil => exact ⟨rfl, (List.append_nil _).symm⟩
  | cons c text ih =>
      obtain ⟨hc, htext⟩ := not_or.1 fun h => hcr (List.mem_cons.2 h)
      obtain ⟨hl, htext'⟩ := not_or.1 fun h => hlf (List.mem_cons.2 h)
      rw [List.length_cons] at hroom
      have hfull : ¬ s.ring.Full bufferSize := fun hfull => by
        have := RingBuffer.count_full hok hfull
        omega
      have hcall : uartAsyncPutcCall s c = (s.push c, true) := by
        rw [uartAsyncPutcCall, if_neg hfull]
        simp only [if_neg (Ne.symm hc), State.push]
      have hcount : (s.push c).ring.count bufferSize = s.ring.count bufferSize + 1 :=
        RingBuffer.count_advance (hok.store c) hfull
      have hrest := ih (s := s.push c) (hok.store c).advance htext htext' (by omega)
      rw [uartAsyncPuts, if_neg (Ne.symm hl), hcall, ifAccepted, if_pos rfl]
      refine ⟨hrest.1, hrest.2.trans ?_⟩
      rw [push_contents hok hfull, List.append_assoc, List.singleton_append]

/-- With a line feed the head goes too far, or the call fails. -/
theorem not_putsAgree (hok : s.ring.Ok bufferSize) (hcr : cr ∉ text) (hlf : lf ∈ text)
    (hroom : s.ring.count bufferSize + (uartPuts text).length < bufferSize) : ¬ PutsAgree s text := by
  rintro ⟨hret, hcontents⟩
  have hmoved := uartAsyncPuts_moved hok hcr hret
  have hlen := congrArg List.length hcontents
  rw [List.length_append, RingBuffer.length_contents, RingBuffer.length_contents] at hlen
  have hpos : 0 < text.count lf := List.count_pos_iff.2 hlf
  have hle := count_le_uartPuts text
  have hnew := RingBuffer.count_eq hmoved.ok
  have hold := RingBuffer.count_eq hok
  have hhead := hmoved.ok.head
  have hhead₀ := hok.head
  have htail := hok.tail
  rw [hlen, hmoved.tail] at hnew
  have hsum : (uartAsyncPuts s text).1.ring.head =
      s.ring.head + ((uartPuts text).length + text.count lf) ∨
      (uartAsyncPuts s text).1.ring.head + bufferSize =
        s.ring.head + ((uartPuts text).length + text.count lf) ∨
      (uartAsyncPuts s text).1.ring.head + 2 * bufferSize =
        s.ring.head + ((uartPuts text).length + text.count lf) := by
    have hhead' := hmoved.head
    have hn : bufferSize = 4096 := rfl
    rw [hn] at hhead' hroom hhead₀ ⊢
    omega
  split_ifs at hnew hold <;> omega

/-- The two functions agree on a string without carriage returns for which the ring has room if and only if
the string has no line feed. -/
theorem uartAsyncPuts_agrees_iff (hok : s.ring.Ok bufferSize) (hcr : cr ∉ text)
    (hroom : s.ring.count bufferSize + (uartPuts text).length < bufferSize) :
    PutsAgree s text ↔ lf ∉ text := by
  refine ⟨fun hagree hlf => not_putsAgree hok hcr hlf hroom hagree, fun hlf => ?_⟩
  rw [uartPuts_plain hlf] at hroom
  rw [PutsAgree, uartPuts_plain hlf]
  exact uartAsyncPuts_plain hok hcr hlf hroom

theorem State.blank_ok : State.blank.ring.Ok bufferSize := ⟨by decide, by decide⟩

/-- The string `a`. -/
theorem uartAsyncPuts_agrees_a : PutsAgree State.blank [97] ↔ lf ∉ [97] :=
  uartAsyncPuts_agrees_iff State.blank_ok (by decide) (by decide)

/-- A single line feed comes out twice. -/
theorem uartAsyncPuts_line :
    State.blank.Initial ∧ (uartAsyncPuts State.blank [lf]).2 = true ∧
      (uartAsyncPuts State.blank [lf]).1.ring.contents bufferSize = [cr, lf, lf] ∧
      uartPuts [lf] = [cr, lf] ∧ ¬ PutsAgree State.blank [lf] := by
  have hcontents : (uartAsyncPuts State.blank [lf]).1.ring.contents bufferSize = [cr, lf, lf] := by
    decide
  refine ⟨State.blank_initial, by decide, hcontents, by decide, fun hagree => ?_⟩
  have hsame := hcontents.symm.trans hagree.2
  revert hsame
  decide

end OscKernel.Uart
