import OscKernel.Aarch64
import Mathlib.Tactic.IntervalCases

/-!
# Trap frames

The code of `exception_table.S` that every exception goes through. `save_all` puts the registers into a trap
frame on the stack and `load_all` takes them from it, so what the handler does in between is not seen by the
code it has interrupted, and neither are the exceptions that interrupt the handler.
-/

namespace OscKernel.Proc

open Aarch64

def saveAll : List Instr :=
  [.subSp (16 * 17),
    .stp 0 1 .sp (16 * 0), .stp 2 3 .sp (16 * 1), .stp 4 5 .sp (16 * 2), .stp 6 7 .sp (16 * 3),
    .stp 8 9 .sp (16 * 4), .stp 10 11 .sp (16 * 5), .stp 12 13 .sp (16 * 6), .stp 14 15 .sp (16 * 7),
    .stp 16 17 .sp (16 * 8), .stp 18 19 .sp (16 * 9), .stp 20 21 .sp (16 * 10), .stp 22 23 .sp (16 * 11),
    .stp 24 25 .sp (16 * 12), .stp 26 27 .sp (16 * 13), .stp 28 29 .sp (16 * 14),
    .mrs 21 .spEl0, .stp 30 21 .sp (16 * 15),
    .mrs 0 .spsrEl1, .mrs 1 .elrEl1, .stp 0 1 .sp (16 * 16)]

def loadAll : List Instr :=
  [.ldp 0 1 .sp (16 * 16), .msr .spsrEl1 0, .msr .elrEl1 1,
    .ldp 30 21 .sp (16 * 15), .msr .spEl0 21,
    .ldp 28 29 .sp (16 * 14), .ldp 26 27 .sp (16 * 13), .ldp 24 25 .sp (16 * 12), .ldp 22 23 .sp (16 * 11),
    .ldp 20 21 .sp (16 * 10), .ldp 18 19 .sp (16 * 9), .ldp 16 17 .sp (16 * 8), .ldp 14 15 .sp (16 * 7),
    .ldp 12 13 .sp (16 * 6), .ldp 10 11 .sp (16 * 5), .ldp 8 9 .sp (16 * 4), .ldp 6 7 .sp (16 * 3),
    .ldp 4 5 .sp (16 * 2), .ldp 2 3 .sp (16 * 1), .ldp 0 1 .sp (16 * 0),
    .addSp (16 * 17)]

def frameWords : ℕ := 34

def frameSize : ℕ := 8 * frameWords

/-- The words of a `struct TrapFrame`, as `save_all` writes them. -/
def frameWord (m : Machine) (i : ℕ) : Word :=
  if h : i < 31 then m.x ⟨i, h⟩
  else if i = 31 then m.sys .spEl0
  else if i = 32 then m.sys .spsrEl1
  else m.sys .elrEl1

variable {m m' : Machine} {own : Set Word} {top a vector masked here : Word} {i k : ℕ}

theorem run_saveAll_mem (m : Machine) :
    (run m saveAll).mem = storeSlots m.mem (m.sp - BitVec.ofNat 64 frameSize) (frameWord m) frameWords := by
  -- The instructions one after the other.
  rfl

theorem run_loadAll_x (m : Machine) (i : Fin 31) : (run m loadAll).x i = m.mem (slot m.sp i) := by
  fin_cases i <;> rfl

def enter (m : Machine) (vector masked : Word) : Machine := run (m.take vector masked) saveAll

def leave (m : Machine) : Machine := (run m loadAll).eret

/-- A handler whose trap frame is at `top` brings the processor from `m` to `m'`. It and the threads that run
while its thread waits may do anything but write to the words `own` of the thread's stack from the frame on;
and it may itself be interrupted, any number of times and to any depth. -/
inductive Handler (own : Set Word) : Word → Machine → Machine → Prop
  | refl {top : Word} {m : Machine} : Handler own top m m
  | compute {top : Word} {m m₁ m₂ : Machine} : Handler own top m m₁ →
      (∀ a ∈ own, top ≤ a → m₂.mem a = m₁.mem a) → Handler own top m m₂
  | interrupt {top vector masked : Word} {m m₁ m₂ : Machine} : Handler own top m m₁ →
      m₁.sp ≤ top → frameSize ≤ m₁.sp.toNat →
      Handler own (enter m₁ vector masked).sp (enter m₁ vector masked) m₂ →
      m₂.sp = (enter m₁ vector masked).sp → Handler own top m (leave m₂)

theorem enter_sp (m : Machine) (vector masked : Word) :
    (enter m vector masked).sp = m.sp - BitVec.ofNat 64 frameSize := rfl

theorem toNat_enter_sp (hroom : frameSize ≤ m.sp.toNat) :
    (enter m vector masked).sp.toNat = m.sp.toNat - frameSize := by
  have hlt := m.sp.isLt
  have hsize : frameSize = 272 := rfl
  rw [enter_sp, BitVec.toNat_sub, BitVec.toNat_ofNat]
  omega

theorem toNat_slot (hroom : frameSize ≤ m.sp.toNat) (hi : i < frameWords) :
    (slot (enter m vector masked).sp i).toNat = m.sp.toNat - frameSize + 8 * i := by
  have hlt := m.sp.isLt
  have hsize : frameSize = 8 * frameWords := rfl
  have hwords : frameWords = 34 := rfl
  rw [slot, BitVec.toNat_add, toNat_enter_sp hroom, BitVec.toNat_ofNat]
  omega

theorem enter_sp_le (hroom : frameSize ≤ m.sp.toNat) : (enter m vector masked).sp ≤ m.sp := by
  rw [BitVec.le_def, toNat_enter_sp hroom]
  exact Nat.sub_le _ _

theorem enter_sp_le_slot (hroom : frameSize ≤ m.sp.toNat) (hi : i < frameWords) :
    (enter m vector masked).sp ≤ slot (enter m vector masked).sp i := by
  rw [BitVec.le_def, toNat_slot hroom hi, toNat_enter_sp hroom]
  exact Nat.le_add_right _ _

theorem enter_mem (m : Machine) (vector masked : Word) : (enter m vector masked).mem =
    storeSlots m.mem (enter m vector masked).sp (frameWord (m.take vector masked)) frameWords :=
  run_saveAll_mem _

/-- The words from the stack pointer on are not in the frame. -/
theorem enter_mem_above (hroom : frameSize ≤ m.sp.toNat) (ha : m.sp ≤ a) :
    (enter m vector masked).mem a = m.mem a := by
  rw [enter_mem]
  refine storeSlots_outside ?_
  rintro i hi rfl
  have hle := BitVec.le_def.1 ha
  have hsize : frameSize = 8 * frameWords := rfl
  rw [toNat_slot hroom hi] at hle
  omega

theorem enter_frame (m : Machine) (vector masked : Word) (hi : i < frameWords) :
    (enter m vector masked).mem (slot (enter m vector masked).sp i) = frameWord (m.take vector masked) i := by
  rw [enter_mem]
  exact storeSlots_self (by decide) hi

/-- A handler leaves alone what is above its frame, whatever interrupts it. -/
theorem Handler.kept (h : Handler own top m m') (ha : a ∈ own) (htop : top ≤ a) : m'.mem a = m.mem a := by
  induction h with
  | refl => rfl
  | compute _ hkeep ih => rw [hkeep a ha htop, ih htop]
  | interrupt _ hsp hroom _ _ ih ih' =>
      have habove := BitVec.le_trans hsp htop
      have hinner := ih' (BitVec.le_trans (enter_sp_le hroom) habove)
      rw [enter_mem_above hroom habove, ih htop] at hinner
      exact hinner

/-- The frame still holds what `save_all` has put there. -/
theorem Handler.frame (h : Handler own (enter m vector masked).sp (enter m vector masked) m')
    (hroom : frameSize ≤ m.sp.toNat) (hsp : m'.sp = (enter m vector masked).sp) (hi : i < frameWords)
    (hown : slot m'.sp i ∈ own) : m'.mem (slot m'.sp i) = frameWord (m.take vector masked) i := by
  rw [hsp] at hown ⊢
  rw [h.kept hown (enter_sp_le_slot hroom hi), enter_frame m vector masked hi]

theorem frameWord_take_x (m : Machine) (vector masked : Word) (i : Fin 31) :
    frameWord (m.take vector masked) i = m.x i := by
  rw [frameWord, dif_pos i.isLt]
  rfl

structure Returns (own : Set Word) (m m' : Machine) : Prop where
  sp : m'.sp = m.sp
  mem : ∀ a ∈ own, m.sp ≤ a → m'.mem a = m.mem a
  x : ∀ i : Fin 31, slot (m.sp - BitVec.ofNat 64 frameSize) i ∈ own → m'.x i = m.x i
  spEl0 : slot (m.sp - BitVec.ofNat 64 frameSize) 31 ∈ own → m'.sys .spEl0 = m.sys .spEl0
  pstate : slot (m.sp - BitVec.ofNat 64 frameSize) 32 ∈ own → m'.pstate = m.pstate
  pc : slot (m.sp - BitVec.ofNat 64 frameSize) 33 ∈ own → m'.pc = m.pc

theorem Handler.returns (h : Handler own (enter m vector masked).sp (enter m vector masked) m')
    (hroom : frameSize ≤ m.sp.toNat) (hsp : m'.sp = (enter m vector masked).sp) :
    Returns own m (leave m') := by
  have hslot : ∀ {i : ℕ}, i < frameWords → slot (m.sp - BitVec.ofNat 64 frameSize) i ∈ own →
      m'.mem (slot m'.sp i) = frameWord (m.take vector masked) i := by
    intro i hi hown
    refine h.frame hroom hsp hi ?_
    rw [hsp]
    exact hown
  have hleave : (leave m').sp = m'.sp + BitVec.ofNat 64 frameSize := rfl
  constructor
  case sp => rw [hleave, hsp, enter_sp, BitVec.sub_add_cancel]
  case mem =>
    intro a ha habove
    have hkept := h.kept ha (BitVec.le_trans (enter_sp_le hroom) habove)
    rw [enter_mem_above hroom habove] at hkept
    exact hkept
  case x =>
    intro i hown
    have hx : (leave m').x i = m'.mem (slot m'.sp i) := run_loadAll_x m' i
    rw [hx, hslot (i.isLt.trans (by decide)) hown, frameWord_take_x]
  case spEl0 => exact fun hown => hslot (by decide) hown
  case pstate => exact fun hown => hslot (by decide) hown
  case pc => exact fun hown => hslot (by decide) hown

/-- The processor at the address `here`, after `k` instructions of `load_all`. -/
def stopped (m : Machine) (k : ℕ) (here : Word) : Machine := { run m (loadAll.take k) with pc := here }

/-- An interrupt is taken there, and the rest of `load_all` follows. -/
inductive Interrupted (own : Set Word) (k : ℕ) (here : Word) (m : Machine) : Machine → Prop
  | intro {vector masked : Word} {m₁ : Machine} : frameSize ≤ (stopped m k here).sp.toNat →
      Handler own (enter (stopped m k here) vector masked).sp (enter (stopped m k here) vector masked) m₁ →
      m₁.sp = (enter (stopped m k here) vector masked).sp → (∀ i < frameWords, slot m₁.sp i ∈ own) →
      Interrupted own k here m (run (leave m₁) (loadAll.drop k)).eret

theorem stopped_sp (hk : k < loadAll.length) : (stopped m k here).sp = m.sp := by
  change k < 21 at hk
  interval_cases k <;> rfl

theorem reads_loadAll {A : Set Word} {R : Set SysReg} (h : ∀ i < frameWords, slot m.sp i ∈ A) :
    Reads A R m loadAll := by
  have hpair : ∀ i, i + 1 < frameWords → slot m.sp i ∈ A ∧ slot m.sp (i + 1) ∈ A :=
    fun i hi => ⟨h i (Nat.lt_of_succ_lt hi), h (i + 1) hi⟩
  exact ⟨hpair 32 (by decide), trivial, trivial, hpair 30 (by decide), trivial, hpair 28 (by decide),
    hpair 26 (by decide), hpair 24 (by decide), hpair 22 (by decide), hpair 20 (by decide),
    hpair 18 (by decide), hpair 16 (by decide), hpair 14 (by decide), hpair 12 (by decide),
    hpair 10 (by decide), hpair 8 (by decide), hpair 6 (by decide), hpair 4 (by decide), hpair 2 (by decide),
    hpair 0 (by decide), trivial, trivial⟩

/-- What the interrupt leaves behind. -/
theorem Interrupted.resumes (h : Interrupted own k here m m') : ∃ m₁, m' = (run m₁ (loadAll.drop k)).eret ∧
    Machine.Agree {a | a ∈ own ∧ (stopped m k here).sp ≤ a} {.spEl0} (run m (loadAll.take k)) m₁ ∧
    m₁.sys .elrEl1 = here ∧ m₁.sys .spsrEl1 = m.pstate := by
  obtain @⟨vector, masked, m₁, hroom, hhandler, hsp, hown⟩ := h
  have hret := hhandler.returns hroom hsp
  have hframe : ∀ i < frameWords, slot ((stopped m k here).sp - BitVec.ofNat 64 frameSize) i ∈ own := by
    intro i hi
    have hslot := hown i hi
    rw [hsp] at hslot
    exact hslot
  have hx : ∀ i, (leave m₁).x i = (stopped m k here).x i :=
    fun i => hret.x i (hframe i (i.isLt.trans (by decide)))
  have hpstate : (leave m₁).pstate = (stopped m k here).pstate := hret.pstate (hframe 32 (by decide))
  refine ⟨leave m₁, rfl, ⟨funext hx, hret.sp, fun a ha => hret.mem a ha.1 ha.2, ?_⟩,
    hret.pc (hframe 33 (by decide)), hpstate.trans run_pstate⟩
  rintro r rfl
  exact hret.spEl0 (hframe 31 (by decide))

/-- The rest of `load_all` restores the registers as if nothing had happened. -/
theorem rest_loadAll {m₁ : Machine} {A : Set Word} (hk : k ≤ loadAll.length)
    (hslots : k < loadAll.length → ∀ i < frameWords, slot m.sp i ∈ A)
    (h : Machine.Agree A {.spEl0} (run m (loadAll.take k)) m₁) :
    Machine.Agree A {.spEl0} (run m loadAll) (run m₁ (loadAll.drop k)) := by
  have hrun : run m loadAll = run (run m (loadAll.take k)) (loadAll.drop k) := by
    rw [← run_append, List.take_append_drop]
  rw [hrun]
  rcases hk.lt_or_eq with hlt | rfl
  · refine h.run (Reads.append ?_)
    rw [List.take_append_drop]
    exact reads_loadAll (hslots hlt)
  · rw [List.drop_length]
    exact h

/-- Before the first `msr` the system registers are yet to be loaded. -/
theorem sys_loadAll {m₁ : Machine} {A : Set Word} (hk : k ≤ 1) (hslots : ∀ i < frameWords, slot m.sp i ∈ A)
    (h : Machine.Agree A {.spEl0} (run m (loadAll.take k)) m₁) :
    (run m₁ (loadAll.drop k)).sys .spsrEl1 = (run m loadAll).sys .spsrEl1 ∧
    (run m₁ (loadAll.drop k)).sys .elrEl1 = (run m loadAll).sys .elrEl1 := by
  interval_cases k
  case «0» =>
    have hword : ∀ i < frameWords, m₁.mem (slot m₁.sp i) = m.mem (slot m.sp i) := by
      intro i hi
      rw [h.sp]
      exact h.mem _ (hslots i hi)
    exact ⟨hword 32 (by decide), hword 33 (by decide)⟩
  case «1» => exact ⟨congrFun h.x 0, congrFun h.x 1⟩

/-- Exceptions are transparent. The only exceptions that are not are those that interrupt `load_all` from its
first `msr` on: then `eret` goes back into `load_all`. -/
theorem exception_transparent (hroom : frameSize ≤ m.sp.toNat)
    (h : Handler own (enter m vector masked).sp (enter m vector masked) m')
    (hsp : m'.sp = (enter m vector masked).sp) :
    Returns own m (leave m') ∧
    ∀ own₁ k here m₂, own ⊆ own₁ → (∀ i < frameWords, slot m'.sp i ∈ own₁) → k ≤ loadAll.length →
      Interrupted own₁ k here m' m₂ →
      (k ≤ 1 → Returns own m m₂) ∧ (1 < k → m₂.pstate = m'.pstate) ∧ (2 < k → m₂.pc = here) := by
  have hleave := h.returns hroom hsp
  refine ⟨hleave, ?_⟩
  intro own₁ k here m₂ hsub hslots hk hint
  obtain ⟨m₁, rfl, hagree, hpc, hpstate⟩ := hint.resumes
  have hstopped : (stopped m' k here).sp ≤ m.sp := by
    rcases hk.lt_or_eq with hlt | rfl
    · rw [stopped_sp hlt, hsp]
      exact enter_sp_le hroom
    · exact (congrArg (· ≤ m.sp) hleave.sp).mpr (BitVec.le_refl _)
  have hin : k < loadAll.length → ∀ i < frameWords,
      slot m'.sp i ∈ {a | a ∈ own₁ ∧ (stopped m' k here).sp ≤ a} := by
    intro hlt i hi
    refine ⟨hslots i hi, ?_⟩
    rw [stopped_sp hlt, hsp]
    exact enter_sp_le_slot hroom hi
  have hrest := rest_loadAll hk hin hagree
  refine ⟨?_, ?_, ?_⟩
  · intro hle
    have hlt : k < loadAll.length := hle.trans_lt (by decide)
    obtain ⟨hspsr, helr⟩ := sys_loadAll hle (hin hlt) hagree
    constructor
    case sp => exact hrest.sp.trans hleave.sp
    case mem =>
      exact fun a ha habove => (hrest.mem a ⟨hsub ha, BitVec.le_trans hstopped habove⟩).trans
        (hleave.mem a ha habove)
    case x => exact fun i hown => (congrFun hrest.x i).trans (hleave.x i hown)
    case spEl0 => exact fun hown => (hrest.sys .spEl0 rfl).trans (hleave.spEl0 hown)
    case pstate => exact fun hown => hspsr.trans (hleave.pstate hown)
    case pc => exact fun hown => helr.trans (hleave.pc hown)
  · intro hlt
    have hnot : ∀ a, Instr.msr .spsrEl1 a ∉ loadAll.drop k :=
      fun a hmem => absurd (List.drop_subset_drop_left _ hlt hmem) (by simp [loadAll])
    exact (run_sys hnot).trans hpstate
  · intro hlt
    have hnot : ∀ a, Instr.msr .elrEl1 a ∉ loadAll.drop k :=
      fun a hmem => absurd (List.drop_subset_drop_left _ hlt hmem) (by simp [loadAll])
    exact (run_sys hnot).trans hpc

def sampleMachine : Machine :=
  { x := fun i => BitVec.ofNat 64 i, sp := 4096, sys := fun _ => 0, pc := 0x80000, pstate := 0x345
    mem := fun _ => 0 }

def handledMachine : Machine := leave (enter (enter sampleMachine 0x800 0x3c5) 0x800 0x3c5)

def stoppedMachine : Machine := enter (stopped handledMachine 3 0x900) 0x800 0x3c5

theorem exception_transparent_sample : Returns Set.univ sampleMachine (leave handledMachine) ∧
    (run (leave stoppedMachine) (loadAll.drop 3)).eret.pc = 0x900 := by
  have hhandler : Handler Set.univ (enter sampleMachine 0x800 0x3c5).sp (enter sampleMachine 0x800 0x3c5)
      handledMachine := Handler.interrupt Handler.refl (BitVec.le_refl _) (by decide) Handler.refl rfl
  obtain ⟨hreturns, hstopped⟩ := exception_transparent (by decide) hhandler (by decide)
  have hagain : Interrupted Set.univ 3 0x900 handledMachine
      (run (leave stoppedMachine) (loadAll.drop 3)).eret :=
    .intro (by decide) Handler.refl rfl fun _ _ => trivial
  have hback := hstopped Set.univ 3 0x900 _ subset_rfl (fun _ _ => trivial) (by decide) hagain
  exact ⟨hreturns, hback.2.2 (by decide)⟩

end OscKernel.Proc
