import OscKernel.ControlBlock

/-!
# Reading from the UART

`sys_uart_read` of `syscall.c` and `uart_getn` of `uart.c`. Pointers are 64 bits wide and wrap around.
What the UART is going to receive is a stream of bytes, from which `uart_getc` takes the next one. The
trap frame stands for the registers of the caller, apart from the memory.
-/

namespace OscKernel.UartRead

open Proc (TrapFrame)

structure State where
  mem : BitVec 64 → UInt8
  rx : ℕ → UInt8
  warnings : List String

def uartGetc (s : State) : UInt8 × State := (s.rx 0, { s with rx := fun i => s.rx (i + 1) })

def store (s : State) (ptr : BitVec 64) (c : UInt8) : State :=
  { s with mem := Function.update s.mem ptr c }

/-- The loop of `uart_getn`, with the pointer behind it. -/
def getnLoop (s : State) (ptr : BitVec 64) : ℕ → State × BitVec 64
  | 0 => (s, ptr)
  | n + 1 => getnLoop (store (uartGetc s).2 ptr (uartGetc s).1) (ptr + 1) n

def uartGetn (s : State) (buffer : BitVec 64) (n : ℕ) : State × ℕ :=
  let r := getnLoop s buffer n
  (store r.1 r.2 0, n)

def maxSize : ℤ := 4096

def warn (s : State) (text : String) : State := { s with warnings := s.warnings ++ [text] }

def sizeArg (frame : TrapFrame) : ℤ := ((frame 1).setWidth 32).toInt

def sysUartRead (s : State) (frame : TrapFrame) : State × TrapFrame :=
  let buf := frame 0
  let size := sizeArg frame
  let r :=
    if size > maxSize then (warn s "[WARN] sys_uart_read: size is too large\r\n", maxSize) else (s, size)
  let s := r.1
  let size := r.2
  if size ≤ 0 then (warn s "[WARN] sys_uart_read: size is invalid\r\n", frame)
  else if buf = 0 then (warn s "[WARN] sys_uart_read: buf is NULL\r\n", frame)
  else
    let r := uartGetn s buf size.toNat
    (r.1, Function.update frame 0 (BitVec.ofNat 64 r.2))

variable {s : State} {frame : TrapFrame} {buf ptr a : BitVec 64} {n i : ℕ}

theorem add_ofNat_inj {j : ℕ} (hi : i < 2 ^ 64) (hj : j < 2 ^ 64)
    (h : ptr + BitVec.ofNat 64 i = ptr + BitVec.ofNat 64 j) : i = j := by
  have hnat := congrArg BitVec.toNat ((BitVec.add_right_inj ptr).1 h)
  rwa [BitVec.toNat_ofNat, BitVec.toNat_ofNat, Nat.mod_eq_of_lt hi, Nat.mod_eq_of_lt hj] at hnat

theorem succ_add_ofNat (ptr : BitVec 64) (i : ℕ) :
    ptr + 1 + BitVec.ofNat 64 i = ptr + BitVec.ofNat 64 (i + 1) := by
  rw [BitVec.add_assoc, Nat.add_comm, BitVec.ofNat_add]
  rfl

/-- The next `n` bytes are stored from `ptr` on. -/
structure Got (s : State) (ptr : BitVec 64) (n : ℕ) (s' : State) : Prop where
  rx : ∀ i, s'.rx i = s.rx (n + i)
  inside : ∀ i < n, s'.mem (ptr + BitVec.ofNat 64 i) = s.rx i
  outside : ∀ a, (∀ i < n, a ≠ ptr + BitVec.ofNat 64 i) → s'.mem a = s.mem a

theorem getnLoop_got (s : State) (ptr : BitVec 64) (hn : n < 2 ^ 64) :
    Got s ptr n (getnLoop s ptr n).1 ∧ (getnLoop s ptr n).2 = ptr + BitVec.ofNat 64 n := by
  induction n generalizing s ptr with
  | zero =>
      refine ⟨⟨fun i => by rw [Nat.zero_add]; rfl, fun i hi => absurd hi (Nat.not_lt_zero i),
        fun a _ => rfl⟩, ?_⟩
      exact (BitVec.add_zero ptr).symm
  | succ n ih =>
      obtain ⟨hgot, hptr⟩ := ih (store (uartGetc s).2 ptr (uartGetc s).1) (ptr + 1) (by omega)
      have hzero : ptr + BitVec.ofNat 64 0 = ptr := BitVec.add_zero ptr
      rw [getnLoop]
      refine ⟨⟨fun i => ?_, fun i hi => ?_, fun a ha => ?_⟩, ?_⟩
      · rw [hgot.rx, Nat.add_right_comm]
        rfl
      · cases i with
        | zero =>
            rw [hzero, hgot.outside]
            · exact Function.update_self ..
            · intro j hj heq
              rw [succ_add_ofNat] at heq
              have hij := add_ofNat_inj (by omega) (by omega) (hzero.trans heq)
              omega
        | succ i =>
            rw [← succ_add_ofNat, hgot.inside i (Nat.lt_of_succ_lt_succ hi)]
            rfl
      · have hne : a ≠ ptr := hzero ▸ ha 0 (Nat.succ_pos n)
        rw [hgot.outside]
        · exact Function.update_of_ne hne ..
        · intro i hi
          rw [succ_add_ofNat]
          exact ha (i + 1) (Nat.succ_lt_succ hi)
      · rw [hptr, succ_add_ofNat]

/-- What a call that is accepted reads: the count, in `x[0]`, is the size up to its bound. -/
def count (frame : TrapFrame) : ℕ := (min (sizeArg frame) maxSize).toNat

/-- The call changes the bytes of the buffer that it reports and no other, and they are what has been
received. -/
structure WritesOnly (s : State) (frame : TrapFrame) (s' : State) (frame' : TrapFrame) : Prop where
  result : frame' 0 = BitVec.ofNat 64 (count frame)
  bytes : ∀ i < count frame, s'.mem (frame 0 + BitVec.ofNat 64 i) = s.rx i
  received : ∀ i, s'.rx i = s.rx (count frame + i)
  outside : ∀ a, (∀ i < count frame, a ≠ frame 0 + BitVec.ofNat 64 i) → s'.mem a = s.mem a

/-- The call that is accepted: what it warns of apart, it is a call of `uart_getn`. -/
theorem sysUartRead_accepted (s : State) (hsize : 0 < sizeArg frame) (hbuf : frame 0 ≠ 0) :
    ∃ warnings, sysUartRead s frame =
      ((uartGetn { s with warnings := warnings } (frame 0) (count frame)).1,
        Function.update frame 0 (BitVec.ofNat 64 (count frame))) := by
  by_cases hlarge : sizeArg frame > maxSize
  · have hcount : count frame = maxSize.toNat := by
      rw [count, min_eq_right hlarge.le]
    refine ⟨(warn s "[WARN] sys_uart_read: size is too large\r\n").warnings, ?_⟩
    rw [sysUartRead]
    simp only [if_pos hlarge, if_neg (by decide : ¬ maxSize ≤ 0), if_neg hbuf, hcount]
    rfl
  · have hcount : count frame = (sizeArg frame).toNat := by
      rw [count, min_eq_left (not_lt.1 hlarge)]
    refine ⟨s.warnings, ?_⟩
    rw [sysUartRead]
    simp only [if_neg hlarge, if_neg (not_le.2 hsize), if_neg hbuf, hcount]
    rfl

theorem count_le (frame : TrapFrame) : count frame ≤ 4096 := by
  have hle : min (sizeArg frame) maxSize ≤ 4096 := min_le_right _ _
  rw [count]
  omega

/-- `uart_getn` puts a zero behind what it has read. -/
theorem uart_read_writes_only_iff (s : State) (hsize : 0 < sizeArg frame) (hbuf : frame 0 ≠ 0) :
    WritesOnly s frame (sysUartRead s frame).1 (sysUartRead s frame).2 ↔
      s.mem (frame 0 + BitVec.ofNat 64 (count frame)) = 0 := by
  obtain ⟨warnings, heq⟩ := sysUartRead_accepted s hsize hbuf
  have hcount := count_le frame
  obtain ⟨hgot, hptr⟩ := getnLoop_got { s with warnings := warnings } (frame 0)
    (by omega : count frame < 2 ^ 64)
  have hend : ∀ i < count frame,
      frame 0 + BitVec.ofNat 64 (count frame) ≠ frame 0 + BitVec.ofNat 64 i := by
    intro i hi h
    have := add_ofNat_inj (by omega) (by omega) h
    omega
  rw [heq, uartGetn, hptr]
  constructor
  · intro h
    rw [← h.outside _ hend]
    exact Function.update_self ..
  · intro h0
    refine ⟨Function.update_self (0 : Fin 34) _ frame, fun i hi => ?_, hgot.rx, fun a ha => ?_⟩
    · exact (Function.update_of_ne (hend i hi).symm ..).trans (hgot.inside i hi)
    · by_cases haend : a = frame 0 + BitVec.ofNat 64 (count frame)
      · rw [haend, h0]
        exact Function.update_self ..
      · exact (Function.update_of_ne haend ..).trans (hgot.outside a ha)

def sampleFrame (buf size : BitVec 64) : TrapFrame :=
  fun i => if i = 0 then buf else if i = 1 then size else 0

def filled (b : UInt8) : State := ⟨fun _ => b, fun i => UInt8.ofNat (65 + i), []⟩

/-- A read of two bytes into memory that is zero. -/
theorem uart_read_writes_only_sample : let r := sysUartRead (filled 0) (sampleFrame 4096 2)
    WritesOnly (filled 0) (sampleFrame 4096 2) r.1 r.2 :=
  (uart_read_writes_only_iff (filled 0) (by decide) (by decide)).2 rfl

/-- The byte behind the buffer is overwritten. -/
theorem uart_read_overruns : let r := sysUartRead (filled 7) (sampleFrame 4096 2)
    ¬ WritesOnly (filled 7) (sampleFrame 4096 2) r.1 r.2 := by
  intro r h
  have hchanged : r.1.mem 4098 = 0 := by decide
  have hkept := h.outside 4098 (by decide)
  rw [hchanged] at hkept
  exact absurd hkept (by decide)

end OscKernel.UartRead
