import OscKernel.Descriptors

/-!
# Calls on a descriptor

What `read`, `lseek64`, `write` and `close` answer: how many bytes a read copies, the position that a
seek reports, and what happens on a descriptor that is not open.
-/

namespace OscKernel.Vfs

variable {st : State} {task : Task} {ops : FileOps} {file len : ℕ} {port : List UInt8}
  {fd offset whence : ℤ} {i : Fin threadMaxFd}

/-- A read copies what lies between the position and the end, but at most `len` bytes, and moves the
position behind them. -/
def ReadLaw (ops : FileOps) (st : State) (file len : ℕ) (port : List UInt8) : Prop :=
  let node := st.internal (st.files file).vnode
  let pos := (st.files file).fPos
  let n := min len (node.size - pos)
  ops.read st file true len port =
      (st.setFile file fun e => { e with fPos := pos + n }, (n : ℤ),
        ByteMem.read st.mem (node.data + pos) n) ∧
    (0 < n → pos + n ≤ node.size)

/-- There is nothing to read, or the end of the request is a number of 64 bits and what there is to read
is one of the type `int`. -/
def ReadFits (st : State) (file len : ℕ) : Prop :=
  let size := (st.internal (st.files file).vnode).size
  let pos := (st.files file).fPos
  len = 0 ∨ size ≤ pos ∨ pos + len < 2 ^ 64 ∧ min len (size - pos) < 2 ^ 31

theorem toInt_lt (n : ℕ) : toInt n < 2 ^ 31 := by
  have hlt : Int.bmod n (2 ^ 32) < ((2 ^ 32 : ℕ) + 1) / 2 := Int.bmod_lt (by norm_num)
  have hhalf : (((2 ^ 32 : ℕ) : ℤ) + 1) / 2 = 2 ^ 31 := by norm_num
  rw [hhalf] at hlt
  exact hlt

theorem tmpfsRead_returned (hgood : ¬ st.badFile file)
    (hfile : (st.internal (st.files file).vnode).type = .file) (hlen : len ≠ 0)
    (hpos : (st.files file).fPos < (st.internal (st.files file).vnode).size) :
    (tmpfsRead st file true len).2.1 < 2 ^ 31 := by
  rw [tmpfsRead_inside hgood hfile hlen hpos]
  dsimp only
  apply toInt_lt

/-- When the end of the request wraps around, the position goes back. -/
theorem tmpfsRead_wraps (hgood : ¬ st.badFile file)
    (hfile : (st.internal (st.files file).vnode).type = .file)
    (hpos : (st.files file).fPos < (st.internal (st.files file).vnode).size)
    (hsize : (st.internal (st.files file).vnode).size < 2 ^ 64) (hlen : len < 2 ^ 64)
    (hwrap : 2 ^ 64 ≤ (st.files file).fPos + len) :
    ((tmpfsRead st file true len).1.files file).fPos < (st.files file).fPos := by
  have hmod : ((st.files file).fPos + len) % 2 ^ 64 = (st.files file).fPos + len - 2 ^ 64 := by
    rw [Nat.mod_eq_sub_mod hwrap, Nat.mod_eq_of_lt (by omega)]
  have hall : ¬ (st.internal (st.files file).vnode).size < ((st.files file).fPos + len) % 2 ^ 64 := by
    omega
  rw [tmpfsRead_inside hgood hfile (by omega) hpos]
  simp only [if_neg hall, State.setFile, Function.update_self]
  omega

theorem tmpfsRead_law_iff (port : List UInt8) (hgood : ¬ st.badFile file)
    (hfile : (st.internal (st.files file).vnode).type = .file)
    (hsize : (st.internal (st.files file).vnode).size < 2 ^ 64) (hlen : len < 2 ^ 64) :
    ReadLaw .tmpfs st file len port ↔ ReadFits st file len := by
  constructor
  · rintro ⟨hread, -⟩
    rw [ReadFits]
    by_contra! hno
    obtain ⟨hlen0, hpos, hfits⟩ := hno
    by_cases hwrap : (st.files file).fPos + len < 2 ^ 64
    · have hint := hfits hwrap
      have hlt := tmpfsRead_returned hgood hfile hlen0 hpos
      have hval := congrArg (fun r : State × ℤ × List UInt8 => r.2.1) hread
      rw [FileOps.read] at hval
      dsimp only at hval
      omega
    · have hback := tmpfsRead_wraps hgood hfile hpos hsize hlen (not_lt.1 hwrap)
      have hmoved := congrArg (fun r : State × ℤ × List UInt8 => (r.1.files file).fPos) hread
      simp only [State.setFile, Function.update_self] at hmoved
      rw [FileOps.read] at hmoved
      omega
  · intro hfits
    refine ⟨?_, fun hn => by omega⟩
    rw [FileOps.read, tmpfsRead_spec hgood hfile rfl ?_]
    · rfl
    · intro hn
      rcases hfits with h0 | hend | hfits
      · omega
      · omega
      · exact hfits

/-- `tmpfs_read` and `initramfs_read` keep inside the file exactly when `ReadFits`. -/
theorem read_exact_iff (hops : ops = .tmpfs ∨ ops = .initramfs) (hgood : ¬ st.badFile file)
    (hfile : (st.internal (st.files file).vnode).type = .file)
    (hsize : (st.internal (st.files file).vnode).size < 2 ^ 64) (hlen : len < 2 ^ 64) :
    ReadLaw ops st file len port ↔ ReadFits st file len := by
  rcases hops with rfl | rfl
  · exact tmpfsRead_law_iff port hgood hfile hsize hlen
  · exact tmpfsRead_law_iff port hgood hfile hsize hlen

def SysOp.openF : SysOp := .open 0 ⟨1, [47, 102], by decide⟩ 64

theorem Sys.inRoot_openF : (Sys.inRoot.step .openF).isSome := by decide

def Sys.withFile : Sys := Sys.inRoot.after .openF Sys.inRoot_openF

theorem Sys.withFile_reachable : Sys.withFile.Reachable :=
  Sys.inRoot_reachable.after .openF trivial Sys.inRoot_openF

def SysOp.writeF : SysOp := .write 0 0 (some [1, 2])

theorem Sys.withFile_writeF : (Sys.withFile.step .writeF).isSome := by decide

def Sys.written : Sys := Sys.withFile.after .writeF Sys.withFile_writeF

theorem Sys.written_reachable : Sys.written.Reachable :=
  Sys.withFile_reachable.after .writeF trivial Sys.withFile_writeF

def SysOp.seekOne : SysOp := .lseek 0 0 1 0

theorem Sys.written_seekOne : (Sys.written.step .seekOne).isSome := by decide

def Sys.atOne : Sys := Sys.written.after .seekOne Sys.written_seekOne

theorem Sys.atOne_reachable : Sys.atOne.Reachable :=
  Sys.written_reachable.after .seekOne trivial Sys.written_seekOne

theorem threadMaxFd_pos : 0 < threadMaxFd := by decide

def Sys.firstFile (s : Sys) : ℕ := (s.tasks 0).fdTable ⟨0, threadMaxFd_pos⟩

theorem read_exact_one :
    ReadLaw .tmpfs Sys.atOne.st Sys.atOne.firstFile 1 [] ↔ ReadFits Sys.atOne.st Sys.atOne.firstFile 1 :=
  read_exact_iff (Or.inl rfl) (by decide) (by decide) (by decide) (by decide)

/-- A request up to the address `2 ^ 64` takes the position back to the start. -/
theorem read_goes_back :
    Sys.atOne.Reachable ∧ ¬ Sys.atOne.st.badFile Sys.atOne.firstFile ∧
      (Sys.atOne.st.internal (Sys.atOne.st.files Sys.atOne.firstFile).vnode).type = .file ∧
      ((tmpfsRead Sys.atOne.st Sys.atOne.firstFile true (2 ^ 64 - 1)).1.files
        Sys.atOne.firstFile).fPos = 0 ∧
      ¬ ReadLaw .tmpfs Sys.atOne.st Sys.atOne.firstFile (2 ^ 64 - 1) [] := by
  have hback : ((tmpfsRead Sys.atOne.st Sys.atOne.firstFile true (2 ^ 64 - 1)).1.files
      Sys.atOne.firstFile).fPos = 0 := by decide
  have hone : (Sys.atOne.st.files Sys.atOne.firstFile).fPos = 1 := by decide
  refine ⟨Sys.atOne_reachable, by decide, by decide, hback, ?_⟩
  rintro ⟨hread, -⟩
  have hmoved := congrArg (fun r : State × ℤ × List UInt8 => (r.1.files Sys.atOne.firstFile).fPos) hread
  simp only [State.setFile, Function.update_self, FileOps.read, hone] at hmoved
  rw [hback] at hmoved
  omega

def seekBase (st : State) (file : ℕ) (whence : ℤ) : Option ℤ :=
  if whence = seekSet then some 0
  else if whence = seekCur then some (st.files file).fPos
  else if whence = seekEnd then some (st.internal (st.files file).vnode).size
  else none

def SeeksTo (st : State) (file : ℕ) (offset whence pos : ℤ) : Prop :=
  ∃ base, seekBase st file whence = some base ∧ pos = base + offset ∧ 0 ≤ pos ∧ pos < 2 ^ 63

/-- `sys_lseek64` goes to the position that is asked for and returns it, or it returns a negative value
and stays. -/
def LseekLaw (st : State) (task : Task) (fd offset whence : ℤ) (file : ℕ) : Prop :=
  let res := sysLseek64 st task fd offset whence
  (∀ pos, SeeksTo st file offset whence pos → res.2 = pos ∧ ((res.1.files file).fPos : ℤ) = pos) ∧
    ((¬ ∃ pos, SeeksTo st file offset whence pos) →
      res.2 < 0 ∧ (res.1.files file).fPos = (st.files file).fPos)

/-- The position asked for is the number of the descriptor, and the file system goes there or is there. -/
def SeekWorks (st : State) (fd offset whence : ℤ) (file : ℕ) : Prop :=
  SeeksTo st file offset whence fd ∧
    ((¬ st.badFile file ∧ (st.internal (st.files file).vnode).type = .file) ∨
      ((st.files file).fPos : ℤ) = fd)

theorem SeeksTo.unique {pos pos' : ℤ} (h : SeeksTo st file offset whence pos)
    (h' : SeeksTo st file offset whence pos') : pos = pos' := by
  obtain ⟨base, hbase, rfl, -⟩ := h
  obtain ⟨base', hbase', rfl, -⟩ := h'
  rw [Option.some.inj (hbase.symm.trans hbase')]

/-- Where the file system refuses, the position stays. -/
theorem tmpfsLseek64_refused
    (hno : ¬ (¬ st.badFile file ∧ (st.internal (st.files file).vnode).type = .file)) :
    (tmpfsLseek64 st file offset whence).1 = st := by
  unfold tmpfsLseek64
  by_cases hbad : st.badFile file
  · rw [if_pos hbad]
  · rw [if_neg hbad]
    have htype : (st.internal (st.files file).vnode).type ≠ .file := fun h => hno ⟨hbad, h⟩
    simp only [if_pos htype]

theorem tmpfsLseek64_goes (hgood : ¬ st.badFile file)
    (hfile : (st.internal (st.files file).vnode).type = .file) {pos : ℤ}
    (hpos : SeeksTo st file offset whence pos) :
    (((tmpfsLseek64 st file offset whence).1.files file).fPos : ℤ) = pos := by
  obtain ⟨base, hbase, hsum, hlo, hhi⟩ := hpos
  rw [seekBase] at hbase
  have hmod : Int.bmod (base + offset) (2 ^ 64) = pos := by
    rw [← hsum]
    exact bmod_of_lt hlo (by norm_num; omega)
  unfold tmpfsLseek64
  rw [if_neg hgood]
  simp only [if_neg (not_not.2 hfile), hbase, hmod, if_neg (not_lt.2 hlo), State.setFile,
    Function.update_self]
  exact Int.toNat_of_nonneg hlo

theorem slot_nonneg (hslot : slot fd = some i) : 0 ≤ fd := by
  rw [slot] at hslot
  split_ifs at hslot with h
  exact h.1

theorem sysLseek64_open (hslot : slot fd = some i) (h0 : task.fdTable i ≠ 0)
    (hops : (st.files (task.fdTable i)).fOps = some .tmpfs ∨
      (st.files (task.fdTable i)).fOps = some .initramfs) :
    sysLseek64 st task fd offset whence =
      ((tmpfsLseek64 st (task.fdTable i) offset whence).1, fd) := by
  rw [sysLseek64, hslot]
  dsimp only
  rw [vfsLseek64, if_neg h0]
  rcases hops with hops | hops <;> rw [hops] <;> rfl

/-- `x[0]` keeps the number of the descriptor, so the system call reports the position exactly when
`SeekWorks`. -/
theorem lseek_reports_iff (hslot : slot fd = some i) (h0 : task.fdTable i ≠ 0)
    (hops : (st.files (task.fdTable i)).fOps = some .tmpfs ∨
      (st.files (task.fdTable i)).fOps = some .initramfs) :
    LseekLaw st task fd offset whence (task.fdTable i) ↔
      SeekWorks st fd offset whence (task.fdTable i) := by
  have hcall : sysLseek64 st task fd offset whence = _ := sysLseek64_open hslot h0 hops
  rw [LseekLaw, hcall]
  dsimp only
  constructor
  · rintro ⟨hgo, hstay⟩
    have hseek : ∃ pos, SeeksTo st (task.fdTable i) offset whence pos := by
      by_contra hno
      have hneg := (hstay hno).1
      have hpos := slot_nonneg hslot
      omega
    obtain ⟨pos, hpos⟩ := hseek
    obtain ⟨rfl, hmoved⟩ := hgo pos hpos
    refine ⟨hpos, or_iff_not_imp_left.2 fun hno => ?_⟩
    rw [tmpfsLseek64_refused hno] at hmoved
    exact hmoved
  · rintro ⟨hpos, hthere⟩
    refine ⟨fun pos hpos' => ?_, fun hno => absurd ⟨fd, hpos⟩ hno⟩
    have hfd := hpos.unique hpos'
    refine ⟨hfd, ?_⟩
    rw [← hfd]
    by_cases hgood : ¬ st.badFile (task.fdTable i) ∧
        (st.internal (st.files (task.fdTable i)).vnode).type = .file
    · exact tmpfsLseek64_goes hgood.1 hgood.2 hpos
    · rw [tmpfsLseek64_refused hgood]
      exact hthere.resolve_left hgood

/-- Descriptor `0` at the position `0`. -/
theorem lseek_reports_start :
    LseekLaw Sys.withFile.st (Sys.withFile.tasks 0) 0 0 seekSet Sys.withFile.firstFile ↔
      SeekWorks Sys.withFile.st 0 0 seekSet Sys.withFile.firstFile :=
  lseek_reports_iff (by decide) (by decide) (Or.inl (by decide))

/-- The position `5` is reported as `0`. -/
theorem lseek_not_reported :
    Sys.withFile.Reachable ∧ (Sys.withFile.tasks 0).fdTable ⟨0, by decide⟩ ≠ 0 ∧
      (Sys.withFile.st.files Sys.withFile.firstFile).fOps = some .tmpfs ∧
      (sysLseek64 Sys.withFile.st (Sys.withFile.tasks 0) 0 5 seekSet).2 = 0 ∧
      ¬ LseekLaw Sys.withFile.st (Sys.withFile.tasks 0) 0 5 seekSet Sys.withFile.firstFile := by
  have hzero : (sysLseek64 Sys.withFile.st (Sys.withFile.tasks 0) 0 5 seekSet).2 = 0 := by decide
  refine ⟨Sys.withFile_reachable, by decide, by decide, hzero, fun hlaw => ?_⟩
  have hpos : SeeksTo Sys.withFile.st Sys.withFile.firstFile 5 seekSet 5 :=
    ⟨0, rfl, rfl, by decide, by decide⟩
  have hfive := (hlaw.1 5 hpos).1
  rw [hzero] at hfive
  exact absurd hfive (by decide)

inductive FdCall where
  | read (buf : Bool) (count : ℕ) (port : List UInt8)
  | write (buf : Option (List UInt8))
  | lseek (offset whence : ℤ)
  | close

def FdCall.run (st : State) (task : Task) (fd : ℤ) : FdCall → Option (State × Task × ℤ × List UInt8)
  | .read buf count port => do
      let (st, x, bytes) ← sysRead st task fd buf count port
      some (st, task, x, bytes)
  | .write buf => do
      let (st, x) ← sysWrite st task fd buf
      some (st, task, x, [])
  | .lseek offset whence =>
      let (st, x) := sysLseek64 st task fd offset whence
      some (st, task, x, [])
  | .close =>
      let (st, task, x) := sysClose st task fd
      some (st, task, x, [])

def NotOpen (task : Task) (fd : ℤ) : Prop := ∀ i, slot fd = some i → task.fdTable i = 0

def FdCall.Rejects (st : State) (task : Task) (fd : ℤ) (c : FdCall) : Prop :=
  ∃ x < 0, c.run st task fd = some (st, task, x, [])

def FdCall.Guarded (fd : ℤ) (c : FdCall) : Prop :=
  slot fd = none ∨ c = .write none ∨ c = .write (some []) ∨ c = .close

theorem FdCall.rejects_of_slot (hslot : slot fd = none) (c : FdCall) : c.Rejects st task fd := by
  refine ⟨-1, by decide, ?_⟩
  cases c with
  | read buf count port => simp [FdCall.run, sysRead, hslot]
  | write buf => simp [FdCall.run, sysWrite, hslot]
  | lseek offset whence => simp [FdCall.run, sysLseek64, hslot]
  | close => simp [FdCall.run, sysClose, hslot]

theorem FdCall.rejects_close (hslot : slot fd = some i) (h0 : task.fdTable i = 0) :
    FdCall.close.Rejects st task fd := by
  refine ⟨einval, by decide, ?_⟩
  have hsame : task.setFd i 0 = task := by
    rw [Task.setFd, ← h0, Function.update_eq_self]
  simp only [FdCall.run, sysClose, hslot, vfsClose, if_pos h0, hsame]

theorem FdCall.rejects_write (hslot : slot fd = some i) {buf : Option (List UInt8)}
    (hbuf : buf = none ∨ buf = some []) : (FdCall.write buf).Rejects st task fd := by
  refine ⟨-1, by decide, ?_⟩
  simp only [FdCall.run, sysWrite, hslot, if_pos hbuf]
  rfl

/-- The other calls use the null pointer in the slot, and `sys_lseek64` leaves the descriptor in
`x[0]`. -/
theorem FdCall.Rejects.guarded {c : FdCall} (h : c.Rejects st task fd) (hno : NotOpen task fd) :
    c.Guarded fd := by
  obtain ⟨x, hx, hrun⟩ := h
  cases hslot : slot fd with
  | none => exact Or.inl hslot
  | some i =>
      have h0 := hno i hslot
      refine Or.inr ?_
      cases c with
      | read buf count port =>
          simp only [FdCall.run, sysRead, hslot, if_pos h0] at hrun
          cases hrun
      | write buf =>
          by_cases hbuf : buf = none ∨ buf = some []
          · exact hbuf.imp (congrArg FdCall.write) fun h => Or.inl (congrArg FdCall.write h)
          · simp only [FdCall.run, sysWrite, hslot, if_neg hbuf, if_pos h0] at hrun
            cases hrun
      | lseek offset whence =>
          simp only [FdCall.run, sysLseek64, hslot, Option.some.injEq, Prod.mk.injEq] at hrun
          obtain ⟨-, -, rfl, -⟩ := hrun
          exact absurd hx (not_lt.2 (slot_nonneg hslot))
      | close => exact Or.inr (Or.inr rfl)

/-- On a descriptor that is not open a call is rejected exactly when it is guarded. -/
theorem notOpen_rejected_iff (st : State) (hno : NotOpen task fd) (c : FdCall) :
    c.Rejects st task fd ↔ c.Guarded fd := by
  refine ⟨fun h => h.guarded hno, fun h => ?_⟩
  cases hslot : slot fd with
  | none => exact c.rejects_of_slot hslot
  | some i =>
      rcases h with hnone | rfl | rfl | rfl
      · rw [hnone] at hslot
        cases hslot
      · exact FdCall.rejects_write hslot (Or.inl rfl)
      · exact FdCall.rejects_write hslot (Or.inr rfl)
      · exact FdCall.rejects_close hslot (hno i hslot)

theorem notOpen_rejected_five :
    (FdCall.read true 1 []).Rejects Sys.withFile.st (Sys.withFile.tasks 0) 5 ↔
      (FdCall.read true 1 []).Guarded 5 :=
  notOpen_rejected_iff Sys.withFile.st (by
    intro i hi
    obtain rfl : ⟨5, by decide⟩ = i := Option.some.inj hi
    decide) _

/-- A read from a descriptor that was never opened uses the null pointer, and a seek succeeds. -/
theorem notOpen_not_rejected :
    Sys.withFile.Reachable ∧ (Sys.withFile.tasks 0).fdTable ⟨5, by decide⟩ = 0 ∧
      ¬ (FdCall.read true 1 []).Rejects Sys.withFile.st (Sys.withFile.tasks 0) 5 ∧
      ¬ (FdCall.lseek 0 seekSet).Rejects Sys.withFile.st (Sys.withFile.tasks 0) 5 := by
  have h0 : (Sys.withFile.tasks 0).fdTable ⟨5, by decide⟩ = 0 := by decide
  have hslot : slot 5 = some ⟨5, by decide⟩ := by decide
  have hno : NotOpen (Sys.withFile.tasks 0) 5 := fun i hi => by
    rw [hslot] at hi
    exact Option.some.inj hi ▸ h0
  refine ⟨Sys.withFile_reachable, h0, fun h => ?_, fun h => ?_⟩
  · rcases h.guarded hno with hnone | hc | hc | hc
    · rw [hslot] at hnone
      cases hnone
    all_goals cases hc
  · rcases h.guarded hno with hnone | hc | hc | hc
    · rw [hslot] at hnone
      cases hnone
    all_goals cases hc

end OscKernel.Vfs
