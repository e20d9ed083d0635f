import OscKernel.Runs
import OscKernel.VfsSystem

/-!
# The frame buffer

`dev_framebuffer.c` with the mailbox call behind its `ioctl`. The firmware is any function from the
words of a request to a reply. A write copies to the start of the frame buffer plus the position of the
handle, and neither the write nor the seek compares this with the dimensions of the screen.
-/

namespace OscKernel.Framebuffer

open OscKernel.Vfs Runs

def requestCode : BitVec 32 := 0
def requestSucceed : BitVec 32 := 0x80000000
def endTag : BitVec 32 := 0
def mboxChProp : BitVec 8 := 8

/-- The word that the firmware puts into the mailbox, and the words that it leaves in the buffer. -/
structure Reply where
  res : BitVec 32
  words : ℕ → BitVec 32

def mailboxCall (mbox : BitVec 64) (channel : BitVec 8) (reply : Reply) : BitVec 32 :=
  let msg := mbox.setWidth 32 &&& ~~~0xF#32 ||| (channel &&& 0xF#8).setWidth 32
  if msg = reply.res then if reply.words 1 &&& requestSucceed ≠ 0 then 1 else 0 else 0

structure Screen where
  width : BitVec 32
  height : BitVec 32
  pitch : BitVec 32
  isrgb : BitVec 32
  lfb : BitVec 64

/-- The variables before the first `ioctl`: they lie in the BSS section. -/
def Screen.zero : Screen := ⟨0, 0, 0, 0, 0⟩

def Screen.size (fb : Screen) : ℕ := fb.pitch.toNat * fb.height.toNat

structure FramebufferInfo where
  width : BitVec 32
  height : BitVec 32
  pitch : BitVec 32
  isrgb : BitVec 32

def request : List (BitVec 32) :=
  [35 * 4, requestCode, 0x48003, 8, 8, 1024, 768, 0x48004, 8, 8, 1024, 768, 0x48009, 8, 8, 0, 0, 0x48005,
    4, 4, 32, 0x48006, 4, 4, 1, 0x40001, 8, 8, 4096, 0, 0x40008, 4, 4, 0, endTag]

def Reply.screen (reply : Reply) : Screen :=
  { width := reply.words 5, height := reply.words 6, pitch := reply.words 33, isrgb := reply.words 24,
    lfb := (reply.words 28 &&& 0x3FFFFFFF#32).setWidth 64 }

def Reply.Accepted (reply : Reply) (mbox : BitVec 64) : Prop :=
  mailboxCall mbox mboxChProp reply ≠ 0 ∧ reply.words 20 = 32 ∧ reply.words 28 ≠ 0

instance (reply : Reply) (mbox : BitVec 64) : Decidable (reply.Accepted mbox) :=
  inferInstanceAs (Decidable (_ ∧ _))

def devFramebufferIoctl (fb : Screen) (info : ℕ) (mbox : BitVec 64)
    (gpu : List (BitVec 32) → Reply) : Screen × ℤ × Option FramebufferInfo :=
  if info = 0 then (fb, einval, none)
  else
    let fb := if (gpu request).Accepted mbox then (gpu request).screen else fb
    (fb, 0, some ⟨fb.width, fb.height, fb.pitch, fb.isrgb⟩)

def memcpy (m : ByteMem) (dst src : BitVec 64) : ℕ → ByteMem
  | 0 => m
  | n + 1 => memcpy (Function.update m dst.toNat (m src.toNat)) (dst + 1) (src + 1) n

def stores (dst : BitVec 64) : ℕ → List (BitVec 64)
  | 0 => []
  | n + 1 => dst :: stores (dst + 1) n

/-- `memcpy` takes an `unsigned int`. The last component is what it stores to. -/
def devFramebufferWrite (fb : Screen) (st : State) (file : ℕ) (buf len : BitVec 64) :
    State × ℤ × List (BitVec 64) :=
  if file = 0 ∨ buf = 0 ∨ len = 0 then (st, einval, [])
  else
    let dst := fb.lfb + BitVec.ofNat 64 (st.files file).fPos
    let n := (len.setWidth 32).toNat
    ({ st with mem := memcpy st.mem dst buf n }.setFile file fun e =>
        { e with fPos := (e.fPos + len.toNat) % 2 ^ 64 }, toInt len.toNat, stores dst n)

def devFramebufferLseek64 : State → ℕ → ℤ → ℤ → State × ℤ := devLseek64

variable {m : ByteMem} {dst src a : BitVec 64} {n : ℕ}

@[simp] theorem stores_length (dst : BitVec 64) (n : ℕ) : (stores dst n).length = n := by
  induction n generalizing dst with
  | zero => rfl
  | succ n ih => rw [stores, List.length_cons, ih]

theorem add_one_ofNat (dst : BitVec 64) (i : ℕ) :
    dst + 1 + BitVec.ofNat 64 i = dst + BitVec.ofNat 64 (i + 1) := by
  rw [Nat.add_comm i 1, BitVec.ofNat_add, ← BitVec.add_assoc]
  rfl

theorem mem_stores : a ∈ stores dst n ↔ ∃ i < n, a = dst + BitVec.ofNat 64 i := by
  induction n generalizing dst with
  | zero => simp [stores]
  | succ n ih =>
      rw [stores, List.mem_cons, ih]
      constructor
      · rintro (rfl | ⟨i, hi, rfl⟩)
        · exact ⟨0, Nat.succ_pos n, by simp⟩
        · exact ⟨i + 1, Nat.succ_lt_succ hi, add_one_ofNat dst i⟩
      · rintro ⟨i, hi, rfl⟩
        cases i with
        | zero => exact Or.inl (by simp)
        | succ i => exact Or.inr ⟨i, Nat.lt_of_succ_lt_succ hi, (add_one_ofNat dst i).symm⟩

/-- For the handle and the caller a write is the one of the file system's model. -/
theorem devFramebufferWrite_devWrite (fb : Screen) (st : State) (file : ℕ) {buf : BitVec 64}
    (hbuf : buf ≠ 0) (len : BitVec 64) {bytes : List UInt8} (hbytes : bytes.length = len.toNat) :
    (devFramebufferWrite fb st file buf len).1.files = (devWrite st file (some bytes)).1.files ∧
      (devFramebufferWrite fb st file buf len).2.1 = (devWrite st file (some bytes)).2 := by
  have hzero : len = 0 ↔ bytes.length = 0 := by
    rw [hbytes]
    exact ⟨fun h => congrArg BitVec.toNat h, fun h => BitVec.eq_of_toNat_eq h⟩
  rw [devFramebufferWrite, devWrite]
  by_cases hbad : file = 0 ∨ len = 0
  · rw [if_pos (hbad.imp_right Or.inr), if_pos (hbad.imp_right hzero.1)]
    exact ⟨rfl, rfl⟩
  · have hgood : ¬ (file = 0 ∨ buf = 0 ∨ len = 0) := by
      rw [or_iff_right hbuf]
      exact hbad
    rw [if_neg hgood, if_neg fun h => hbad (h.imp_right hzero.2), hbytes]
    exact ⟨rfl, rfl⟩

/-- The address lies in the frame buffer of the screen, if one has been set up. -/
def InFrame (scr : Option Screen) (a : BitVec 64) : Prop :=
  ∃ fb ∈ scr, fb.lfb.toNat ≤ a.toNat ∧ a.toNat < fb.lfb.toNat + fb.size

def frameSize (scr : Option Screen) : ℕ := (scr.map Screen.size).getD 0

def Screen.Placed (fb : Screen) : Prop := fb.lfb.toNat < 2 ^ 30

theorem Reply.screen_placed (reply : Reply) : reply.screen.Placed := by
  have hand : (reply.words 28 &&& 0x3FFFFFFF#32).toNat ≤ 0x3FFFFFFF := by
    rw [BitVec.toNat_and]
    exact Nat.and_le_right
  have hext : reply.screen.lfb.toNat = (reply.words 28 &&& 0x3FFFFFFF#32).toNat :=
    BitVec.toNat_setWidth_of_le (by decide)
  rw [Screen.Placed, hext]
  omega

theorem Screen.size_le (fb : Screen) : fb.size ≤ (2 ^ 32 - 1) * (2 ^ 32 - 1) :=
  Nat.mul_le_mul (Nat.le_sub_one_of_lt fb.pitch.isLt) (Nat.le_sub_one_of_lt fb.height.isLt)

/-- All stores of a copy to the position `pos` lie in the frame buffer exactly when its end does. -/
theorem stores_inside_iff {fb : Screen} {pos : ℕ} (hfb : fb.Placed) (hpos : pos < 2 ^ 64) (hn : 0 < n) :
    (∀ a ∈ stores (fb.lfb + BitVec.ofNat 64 pos) n, InFrame (some fb) a) ↔ pos + n ≤ fb.size := by
  have hsize := fb.size_le
  rw [Screen.Placed] at hfb
  have haddr : ∀ i, (fb.lfb + BitVec.ofNat 64 pos + BitVec.ofNat 64 i).toNat =
      (fb.lfb.toNat + pos + i) % 2 ^ 64 := by
    intro i
    rw [BitVec.add_assoc, ← BitVec.ofNat_add, BitVec.toNat_add, BitVec.toNat_ofNat, Nat.add_mod_mod,
      Nat.add_assoc]
  constructor
  · intro h
    have hin : ∀ i < n, fb.lfb.toNat ≤ (fb.lfb.toNat + pos + i) % 2 ^ 64 ∧
        (fb.lfb.toNat + pos + i) % 2 ^ 64 < fb.lfb.toNat + fb.size := by
      intro i hi
      obtain ⟨fb', hfb', ha⟩ := h _ (mem_stores.2 ⟨i, hi, rfl⟩)
      obtain rfl := Option.some.inj hfb'
      rw [haddr] at ha
      exact ha
    -- The first byte pins the position down, and then no sum wraps around.
    have hfirst := hin 0 hn
    by_contra! hlt
    have hlast := hin (fb.size - pos) (by omega)
    omega
  · intro h a ha
    obtain ⟨i, hi, rfl⟩ := mem_stores.1 ha
    refine ⟨fb, rfl, ?_⟩
    rw [haddr]
    omega

/-- The calls on `/dev/framebuffer`. `handles` are the files that its `open` has made. -/
inductive Call where
  | open (v : ℕ)
  | lseek64 (file : ℕ) (offset : BitVec 64) (whence : BitVec 32)
  | write (file : ℕ) (buf len : BitVec 64)
  | ioctl (info : ℕ) (mbox : BitVec 64) (gpu : List (BitVec 32) → Reply)

structure Sys where
  st : State
  screen : Screen
  handles : List ℕ

def Sys.boot (st : State) : Sys := ⟨st, Screen.zero, []⟩

def Sys.pos (s : Sys) (file : ℕ) : ℕ := (s.st.files file).fPos

/-- The state after a call, what it returns and the addresses in the frame buffer that it stores to. -/
def Sys.exec (s : Sys) : Call → Sys × ℤ × List (BitVec 64)
  | .open v =>
      let (st, ret, file) := devFramebufferOpen s.st v
      ({ s with st := st, handles := if ret = 0 then file :: s.handles else s.handles }, ret, [])
  | .lseek64 file offset whence =>
      let (st, ret) := devFramebufferLseek64 s.st file offset.toInt whence.toInt
      ({ s with st := st }, ret, [])
  | .write file buf len =>
      let (st, ret, stored) := devFramebufferWrite s.screen s.st file buf len
      ({ s with st := st }, ret, stored)
  | .ioctl info mbox gpu =>
      let (screen, ret, _) := devFramebufferIoctl s.screen info mbox gpu
      ({ s with screen := screen }, ret, [])

/-- A program has only handles that it has opened, or a null pointer. -/
def Call.Valid (s : Sys) : Call → Prop
  | .open v => v ≠ 0
  | .lseek64 file _ _ | .write file _ _ => file = 0 ∨ file ∈ s.handles
  | .ioctl .. => True

structure Event where
  call : Call
  before : Sys
  after : Sys
  ret : ℤ
  stored : List (BitVec 64)

def Sys.event (s : Sys) (c : Call) : Event :=
  let (after, ret, stored) := s.exec c
  ⟨c, s, after, ret, stored⟩

inductive Step (s : Sys) : Event → Sys → Prop
  | call (c : Call) : c.Valid s → Step s (s.event c) (s.event c).after

def Call.sets : Call → Option Screen
  | .ioctl info mbox gpu =>
      if info ≠ 0 ∧ (gpu request).Accepted mbox then some (gpu request).screen else none
  | _ => none

def lastScreen (l : List Event) : Option Screen := (l.filterMap fun e => e.call.sets).getLast?

/-- The write goes outside the frame buffer, with the end of the write as the caller gave it. -/
def Event.GoesOutside (e : Event) (scr : Option Screen) (file : ℕ) (len : BitVec 64) : Prop :=
  frameSize scr < e.before.pos file + len.toNat

/-- All stores are in the frame buffer; a write that would leave it fails or is cut short, and its
handle moves by what it stored. -/
def Event.Inside (scr : Option Screen) (e : Event) : Prop :=
  (∀ a ∈ e.stored, InFrame scr a) ∧
    ∀ file buf len, e.call = .write file buf len → e.GoesOutside scr file len →
      (e.ret < 0 ∨ e.ret < len.toNat) ∧ e.after.pos file = e.before.pos file + e.stored.length

/-- A write that is not refused for its arguments ends inside the frame buffer. -/
def Event.Fits (scr : Option Screen) (e : Event) : Prop :=
  ∀ file buf len, e.call = .write file buf len → file ≠ 0 → buf ≠ 0 → len ≠ 0 →
    e.before.pos file + len.toNat ≤ frameSize scr

/-- The variables hold the screen of the last `ioctl`, and positions are numbers of 64 bits. -/
structure Inv (scr : Option Screen) (s : Sys) : Prop where
  screen : s.screen = scr.getD Screen.zero
  placed : ∀ fb ∈ scr, fb.Placed
  pos : ∀ file ∈ s.handles, s.pos file < 2 ^ 64

variable {s s' : Sys} {l : List Event} {e : Event} {c : Call} {scr : Option Screen}

theorem Inv.boot (st : State) : Inv none (Sys.boot st) :=
  ⟨rfl, fun fb hfb => absurd hfb (Option.not_mem_none fb), fun _ hfile => absurd hfile List.not_mem_nil⟩

theorem lastScreen_concat (l : List Event) (e : Event) :
    lastScreen (l ++ [e]) = e.call.sets.or (lastScreen l) := by
  rw [lastScreen, List.filterMap_append]
  cases h : e.call.sets with
  | none => simp [h, lastScreen]
  | some fb => simp [h]

theorem bmod_lt_half (x : ℤ) : Int.bmod x (2 ^ 64) < 2 ^ 63 := by
  have hlt : Int.bmod x (2 ^ 64) < ((2 ^ 64 : ℕ) + 1) / 2 := Int.bmod_lt (by norm_num)
  have hhalf : (((2 ^ 64 : ℕ) : ℤ) + 1) / 2 = 2 ^ 63 := by norm_num
  rw [hhalf] at hlt
  exact hlt

/-- A seek leaves the state alone or stores a position that is a `long`. -/
theorem devLseek64_cases (st : State) (file : ℕ) {offset : ℤ} (hoff : offset < 2 ^ 63) (whence : ℤ) :
    (devLseek64 st file offset whence).1 = st ∨
      ∃ p < (2 ^ 63 : ℤ), (devLseek64 st file offset whence).1 =
        st.setFile file fun e => { e with fPos := p.toNat } := by
  rw [devLseek64]
  by_cases hfile : file = 0
  · rw [if_pos hfile]
    exact Or.inl rfl
  rw [if_neg hfile]
  dsimp only
  split
  · exact Or.inl rfl
  · rename_i p hp
    have hlt : p < 2 ^ 63 := by
      split_ifs at hp
      · rw [← Option.some.inj hp]
        exact hoff
      · rw [← Option.some.inj hp]
        exact bmod_lt_half _
      · rw [← Option.some.inj hp]
        exact bmod_lt_half _
    split_ifs
    · exact Or.inl rfl
    · exact Or.inr ⟨p, hlt, rfl⟩

theorem update_pos_lt {files : ℕ → File} {file g : ℕ} {r : File} (hr : r.fPos < 2 ^ 64)
    (hpos : (files g).fPos < 2 ^ 64) : (Function.update files file r g).fPos < 2 ^ 64 := by
  by_cases hg : g = file
  · rw [hg, Function.update_self]
    exact hr
  · rw [Function.update_of_ne hg]
    exact hpos

/-- There is no room for a handle, or the handle starts at position `0`. -/
theorem devFramebufferOpen_cases (st : State) (v : ℕ) :
    devFramebufferOpen st v = ((st.alloc sizeofFile).1, enomem, 0) ∨
      devFramebufferOpen st v =
        ((st.alloc sizeofFile).1.setFile (st.alloc sizeofFile).2 fun e =>
          { e with vnode := v, fPos := 0, fOps := some .framebuffer }, 0, (st.alloc sizeofFile).2) := by
  by_cases hfull : (st.alloc sizeofFile).2 = 0
  · exact Or.inl (if_pos hfull)
  · exact Or.inr (if_neg hfull)

theorem Inv.of_eq (h : Inv scr s) (hscreen : s'.screen = s.screen)
    (hpos : ∀ file ∈ s'.handles, s'.pos file < 2 ^ 64) : Inv scr s' :=
  ⟨hscreen.trans h.screen, h.placed, hpos⟩

theorem Inv.exec (h : Inv scr s) (hc : c.Valid s) : Inv (c.sets.or scr) (s.exec c).1 := by
  cases c with
  | «open» v =>
      refine h.of_eq rfl ?_
      rcases devFramebufferOpen_cases s.st v with heq | heq
      · rw [Sys.exec, heq]
        exact h.pos
      · rw [Sys.exec, heq]
        intro file hfile
        rcases List.mem_cons.1 hfile with rfl | hold
        · exact lt_of_eq_of_lt (congrArg File.fPos (Function.update_self ..)) (by norm_num)
        · change (Function.update s.st.files _ _ file).fPos < 2 ^ 64
          exact update_pos_lt (by norm_num) (h.pos file hold)
  | lseek64 file offset whence =>
      refine h.of_eq rfl fun g hg => ?_
      have hoff : offset.toInt < 2 ^ 63 := offset.toInt_lt
      change ((devLseek64 s.st file offset.toInt whence.toInt).1.files g).fPos < 2 ^ 64
      rcases devLseek64_cases s.st file hoff whence.toInt with hsame | ⟨p, hp, hset⟩
      · rw [hsame]
        exact h.pos g hg
      · rw [hset]
        exact update_pos_lt (by dsimp only; omega) (h.pos g hg)
  | write file buf len =>
      refine h.of_eq rfl fun g hg => ?_
      change ((devFramebufferWrite s.screen s.st file buf len).1.files g).fPos < 2 ^ 64
      rw [devFramebufferWrite]
      split_ifs
      · exact h.pos g hg
      · change (Function.update s.st.files file _ g).fPos < 2 ^ 64
        exact update_pos_lt (Nat.mod_lt _ (by norm_num)) (h.pos g hg)
  | ioctl info mbox gpu =>
      change Inv (Option.or (if info ≠ 0 ∧ (gpu request).Accepted mbox then _ else none) scr)
        { s with screen := (devFramebufferIoctl s.screen info mbox gpu).1 }
      rw [devFramebufferIoctl]
      by_cases hinfo : info = 0
      · rw [if_pos hinfo, if_neg fun hand => hand.1 hinfo]
        exact h
      · rw [if_neg hinfo]
        by_cases hacc : (gpu request).Accepted mbox
        · rw [if_pos ⟨hinfo, hacc⟩]
          refine ⟨if_pos hacc, ?_, h.pos⟩
          rintro fb hfb
          rw [← Option.some.inj hfb]
          exact (gpu request).screen_placed
        · rw [if_neg fun hand => hacc hand.2]
          exact ⟨(if_neg hacc).trans h.screen, h.placed, h.pos⟩

theorem Inv.run {st : State} (h : Trace Step (Sys.boot st) l s) : Inv (lastScreen l) s := by
  induction h with
  | nil => exact Inv.boot st
  | snoc _ hstep ih =>
      rcases hstep with ⟨c, hc⟩
      rw [lastScreen_concat]
      exact ih.exec hc

theorem Inv.stores_inside_iff (h : Inv scr s) {pos : ℕ} (hpos : pos < 2 ^ 64) (hn : 0 < n) :
    (∀ a ∈ stores (s.screen.lfb + BitVec.ofNat 64 pos) n, InFrame scr a) ↔
      pos + n ≤ frameSize scr := by
  rw [h.screen]
  cases scr with
  | none =>
      refine iff_of_false (fun hin => ?_) fun hle => ?_
      · obtain ⟨fb, hfb, -⟩ := hin _ (mem_stores.2 ⟨0, hn, rfl⟩)
        cases hfb
      · have hzero : frameSize none = 0 := rfl
        omega
  | some fb => exact Framebuffer.stores_inside_iff (h.placed fb rfl) hpos hn

theorem Sys.event_refused {file : ℕ} {buf len : BitVec 64} (h : file = 0 ∨ buf = 0 ∨ len = 0) :
    s.event (.write file buf len) = ⟨.write file buf len, s, s, einval, []⟩ := by
  rw [Sys.event, Sys.exec, devFramebufferWrite, if_pos h]

/-- An accepted write stores what its length modulo `2 ^ 32` says, and moves the position by all of its
length. -/
theorem Sys.event_accepted {file : ℕ} {buf len : BitVec 64} (h : ¬ (file = 0 ∨ buf = 0 ∨ len = 0)) :
    (s.event (.write file buf len)).stored =
        stores (s.screen.lfb + BitVec.ofNat 64 (s.pos file)) (len.toNat % 2 ^ 32) ∧
      (s.event (.write file buf len)).after.pos file = (s.pos file + len.toNat) % 2 ^ 64 := by
  have hwidth : (len.setWidth 32).toNat = len.toNat % 2 ^ 32 := BitVec.toNat_setWidth 32 len
  rw [Sys.event, Sys.exec, devFramebufferWrite, if_neg h, ← hwidth]
  refine ⟨rfl, ?_⟩
  change (Function.update s.st.files file _ file).fPos = _
  rw [Function.update_self]
  rfl

theorem Inv.write_iff (h : Inv scr s) {file : ℕ} {buf len : BitVec 64} (hfile : file ∈ s.handles)
    (hgood : ¬ (file = 0 ∨ buf = 0 ∨ len = 0)) :
    (s.event (.write file buf len)).Inside scr ↔ s.pos file + len.toNat ≤ frameSize scr := by
  have hpos := h.pos file hfile
  have hlt := len.isLt
  have hpos0 : len.toNat ≠ 0 := fun h0 =>
    hgood (Or.inr (Or.inr (BitVec.eq_of_toNat_eq h0)))
  obtain ⟨hstored, hafter⟩ := Sys.event_accepted (s := s) hgood
  rw [Event.Inside, hstored]
  constructor
  · rintro ⟨hin, hout⟩
    by_contra! hgo
    obtain ⟨-, hmoved⟩ := hout file buf len rfl hgo
    rw [hafter, stores_length] at hmoved
    change _ = s.pos file + _ at hmoved
    by_cases hn : len.toNat % 2 ^ 32 = 0
    · omega
    · have hle := (h.stores_inside_iff hpos (Nat.pos_of_ne_zero hn)).1 hin
      omega
  · intro hle
    constructor
    · by_cases hn : len.toNat % 2 ^ 32 = 0
      · rw [hn]
        exact fun a ha => absurd ha List.not_mem_nil
      · exact (h.stores_inside_iff hpos (Nat.pos_of_ne_zero hn)).2 (by omega)
    · intro file' buf' len' hcall hgo
      obtain ⟨rfl, rfl, rfl⟩ := Call.write.inj hcall
      exact absurd hle (not_le.2 hgo)

theorem Inv.event_iff (h : Inv scr s) (hc : c.Valid s) :
    (s.event c).Inside scr ↔ (s.event c).Fits scr := by
  have hother : (∀ file buf len, c ≠ .write file buf len) → (s.event c).stored = [] →
      ((s.event c).Inside scr ↔ (s.event c).Fits scr) := by
    intro hne hnil
    refine iff_of_true ⟨?_, fun file buf len heq => absurd heq (hne file buf len)⟩
      fun file buf len heq => absurd heq (hne file buf len)
    rw [hnil]
    exact fun a ha => absurd ha List.not_mem_nil
  cases c with
  | «open» v => exact hother (fun _ _ _ => Call.noConfusion) rfl
  | lseek64 file offset whence => exact hother (fun _ _ _ => Call.noConfusion) rfl
  | ioctl info mbox gpu => exact hother (fun _ _ _ => Call.noConfusion) rfl
  | write file buf len =>
      by_cases hbad : file = 0 ∨ buf = 0 ∨ len = 0
      · rw [Sys.event_refused hbad]
        refine iff_of_true ⟨fun a ha => absurd ha List.not_mem_nil, ?_⟩ ?_
        · have hneg : einval < 0 := by decide
          exact fun _ _ _ _ _ => ⟨Or.inl hneg, rfl⟩
        · intro file' buf' len' hcall hfile hbuf hlen
          obtain ⟨rfl, rfl, rfl⟩ := Call.write.inj hcall
          rcases hbad with h0 | h0 | h0
          · exact absurd h0 hfile
          · exact absurd h0 hbuf
          · exact absurd h0 hlen
      · rw [h.write_iff (hc.resolve_left fun h0 => hbad (Or.inl h0)) hbad]
        simp only [not_or] at hbad
        obtain ⟨hfile, hbuf, hlen⟩ := hbad
        constructor
        · intro hle file' buf' len' hcall _ _ _
          obtain ⟨rfl, rfl, rfl⟩ := Call.write.inj hcall
          exact hle
        · exact fun hfits => hfits file buf len rfl hfile hbuf hlen

/-- A property of every event, with the screen that the events before it have set up. -/
def EachEvent (P : Option Screen → Event → Prop) (l : List Event) : Prop :=
  ∀ l₁ e l₂, l = l₁ ++ e :: l₂ → P (lastScreen l₁) e

/-- The frame buffer is respected in a run exactly when every write of it ends inside. -/
theorem framebuffer_inside_iff {st : State} (h : Trace Step (Sys.boot st) l s) :
    EachEvent Event.Inside l ↔ EachEvent Event.Fits l := by
  induction h with
  | nil =>
      have hnil : ∀ P : Option Screen → Event → Prop, EachEvent P [] :=
        fun P l₁ e l₂ heq => absurd heq (by simp)
      exact iff_of_true (hnil _) (hnil _)
  | snoc hrun hstep ih =>
      rcases hstep with ⟨c, hc⟩
      rw [EachEvent, forall_split_concat (P := fun l₁ e => Event.Inside (lastScreen l₁) e), EachEvent,
        forall_split_concat (P := fun l₁ e => Event.Fits (lastScreen l₁) e)]
      exact and_congr ih ((Inv.run hrun).event_iff hc)

def sampleReply : Reply where
  res := 8
  words := fun i =>
    if i = 1 then requestSucceed else if i = 5 then 1024 else if i = 6 then 768
    else if i = 20 then 32 else if i = 24 then 1 else if i = 28 then 0xFC100000
    else if i = 33 then 4096 else 0

def sampleIoctl : Call := .ioctl 256 0 fun _ => sampleReply

def opened : Sys := ((Sys.boot State.blank).event (.open 1)).after
def ready : Sys := (opened.event sampleIoctl).after
def setUp : List Event := [(Sys.boot State.blank).event (.open 1), opened.event sampleIoctl]

theorem setUp_run : Trace Step (Sys.boot State.blank) setUp ready :=
  (Trace.nil.snoc (Step.call (.open 1) Nat.one_ne_zero)).snoc (Step.call sampleIoctl trivial)

def seekEndCall : Call := .lseek64 4096 (BitVec.ofNat 64 (4096 * 768)) 0
def writeOne : Call := .write 4096 512 1

theorem ready_handle : 4096 ∈ ready.handles := by decide

theorem framebuffer_inside_one :
    EachEvent Event.Inside (setUp ++ [ready.event writeOne]) ↔
      EachEvent Event.Fits (setUp ++ [ready.event writeOne]) :=
  framebuffer_inside_iff (setUp_run.snoc (Step.call writeOne (Or.inr ready_handle)))

def atEnd : Sys := (ready.event seekEndCall).after
def overrun : List Event := setUp ++ [ready.event seekEndCall] ++ [atEnd.event writeOne]

/-- A byte behind the frame buffer is written, and the write returns `1`. -/
theorem write_behind_frame :
    Trace Step (Sys.boot State.blank) overrun (atEnd.event writeOne).after ∧
      (atEnd.event writeOne).ret = 1 ∧
      (atEnd.event writeOne).stored = [ready.screen.lfb + BitVec.ofNat 64 ready.screen.size] ∧
      ¬ EachEvent Event.Inside overrun := by
  have hstep : Step ready (ready.event seekEndCall) atEnd :=
    Step.call seekEndCall (Or.inr ready_handle)
  have hstored : (atEnd.event writeOne).stored =
      [ready.screen.lfb + BitVec.ofNat 64 ready.screen.size] := by decide
  have hlast : lastScreen (setUp ++ [ready.event seekEndCall]) = some sampleReply.screen := by
    rfl
  refine ⟨(setUp_run.snoc hstep).snoc (Step.call writeOne (Or.inr ?_)), ?_, hstored, fun h => ?_⟩
  · decide
  · decide
  · obtain ⟨hin, -⟩ := h _ _ [] rfl
    obtain ⟨fb, hfb, -, hlt⟩ := hin _ (hstored ▸ List.mem_singleton_self _)
    rw [hlast] at hfb
    rw [← Option.some.inj hfb] at hlt
    revert hlt
    decide

end OscKernel.Framebuffer
