import OscKernel.Vfs

/-!
# System calls on files

The handlers of `syscall.c` that work on files, and the part of `thread_create` that prepares a thread
for them. A handler returns the new value of `x[0]`, read as a signed number, and takes the old value
where it may leave it. A client passes a descriptor sign-extended, so that `x[0]` and the `int` in its low
32 bits are one number. `none` is a handler that uses a null pointer or does not return.
-/

namespace OscKernel.Vfs

def threadMaxFd : ℕ := 16
def threadStackSize : ℕ := 4096
def sizeofThreadTask : ℕ := 576
def sizeofTrapFrame : ℕ := 272

structure Task where
  cwd : ℕ
  fdTable : Fin threadMaxFd → ℕ

def Task.setFd (t : Task) (i : Fin threadMaxFd) (file : ℕ) : Task :=
  { t with fdTable := Function.update t.fdTable i file }

def slot (fd : ℤ) : Option (Fin threadMaxFd) :=
  if h : 0 ≤ fd ∧ fd < threadMaxFd then some ⟨fd.toNat, by omega⟩ else none

/-- `dev_uart_write` and `dev_framebuffer_write`: the bytes go to the device. -/
def devWrite (st : State) (file : ℕ) (buf : Option (List UInt8)) : State × ℤ :=
  match buf with
  | none => (st, einval)
  | some bytes =>
      if file = 0 ∨ bytes.length = 0 then (st, einval)
      else
        (st.setFile file fun e => { e with fPos := (e.fPos + bytes.length) % 2 ^ 64 },
          toInt bytes.length)

/-- `dev_uart_read` with the characters that the port delivers. -/
def devUartRead (st : State) (file : ℕ) (buf : Bool) (len : ℕ) (port : List UInt8) :
    State × ℤ × List UInt8 :=
  if file = 0 ∨ buf = false ∨ len = 0 then (st, einval, [])
  else
    let bytes := (port.take len).takeWhile (· ≠ 0)
    (st.setFile file fun e => { e with fPos := (e.fPos + bytes.length) % 2 ^ 64 }, toInt bytes.length,
      bytes)

/-- `dev_uart_lseek64` and `dev_framebuffer_lseek64`. -/
def devLseek64 (st : State) (file : ℕ) (offset whence : ℤ) : State × ℤ :=
  if file = 0 then (st, einval)
  else
    let pos := Int.bmod (st.files file).fPos (2 ^ 64)
    let newPos : Option ℤ :=
      if whence = seekSet then some offset
      else if whence = seekCur then some (Int.bmod (pos + offset) (2 ^ 64))
      else if whence = seekEnd then some pos
      else none
    match newPos with
    | none => (st, einval)
    | some newPos =>
        if newPos < 0 then (st, einval)
        else (st.setFile file fun e => { e with fPos := newPos.toNat }, newPos)

def FileOps.write : FileOps → State → ℕ → Option (List UInt8) → Option (State × ℤ)
  | .tmpfs, st, file, buf => tmpfsWrite st file buf
  | .initramfs, st, _, _ => some (st, eacces)
  | .uart, st, file, buf | .framebuffer, st, file, buf => some (devWrite st file buf)

def FileOps.read : FileOps → State → ℕ → Bool → ℕ → List UInt8 → State × ℤ × List UInt8
  | .tmpfs, st, file, buf, len, _ => tmpfsRead st file buf len
  | .initramfs, st, file, buf, len, _ => initramfsRead st file buf len
  | .uart, st, file, buf, len, port => devUartRead st file buf len port
  | .framebuffer, st, _, _, _, _ => (st, -1, [])

def FileOps.lseek64 : FileOps → State → ℕ → ℤ → ℤ → State × ℤ
  | .tmpfs => tmpfsLseek64
  | .initramfs => initramfsLseek64
  | .uart | .framebuffer => devLseek64

def vfsWrite (st : State) (file : ℕ) (buf : Option (List UInt8)) : Option (State × ℤ) :=
  match buf with
  | none => some (st, einval)
  | some bytes =>
      if file = 0 then some (st, einval)
      else if bytes.length = 0 then some (st, 0)
      else
        match (st.files file).fOps with
        | none => some (st, enosys)
        | some ops => ops.write st file (some bytes)

def vfsRead (st : State) (file : ℕ) (buf : Bool) (len : ℕ) (port : List UInt8) :
    State × ℤ × List UInt8 :=
  if file = 0 ∨ buf = false then (st, einval, [])
  else if len = 0 then (st, 0, [])
  else
    match (st.files file).fOps with
    | none => (st, enosys, [])
    | some ops => ops.read st file buf len port

def vfsLseek64 (st : State) (file : ℕ) (offset whence : ℤ) : State × ℤ :=
  if file = 0 then (st, einval)
  else
    match (st.files file).fOps with
    | none => (st, enosys)
    | some ops => ops.lseek64 st file offset whence

def Task.firstEmpty (t : Task) : Option (Fin threadMaxFd) :=
  (List.finRange threadMaxFd).find? fun i => t.fdTable i = 0

/-- In a search over all indices, what comes before `i` are the smaller ones. -/
theorem mem_of_finRange_split {n : ℕ} {l₁ l₂ : List (Fin n)} {i j : Fin n}
    (h : List.finRange n = l₁ ++ i :: l₂) (hj : j < i) : j ∈ l₁ := by
  have hjmem : j ∈ l₁ ++ i :: l₂ := h ▸ List.mem_finRange j
  have hsorted : (l₁ ++ i :: l₂).Pairwise (· < ·) := h ▸ List.pairwise_lt_finRange n
  rcases List.mem_append.1 hjmem with hjl | hjr
  · exact hjl
  · rcases List.mem_cons.1 hjr with rfl | hjr
    · exact absurd hj (lt_irrefl _)
    · have := List.rel_of_pairwise_cons (List.pairwise_append.1 hsorted).2.1 hjr
      exact absurd hj (lt_asymm this)

/-- A path as a user passes it: its address, and its text unless the address is null. -/
structure UserPath where
  pointer : ℕ
  text : List UInt8
  nul : (0 : UInt8) ∉ text

def UserPath.missing (p : UserPath) : Prop := p.pointer = 0 ∨ p.text = []

instance (p : UserPath) : Decidable p.missing := inferInstanceAs (Decidable (_ ∨ _))

def sysOpen (st : State) (task : Task) (path : UserPath) (flags : BitVec 32) :
    Option (State × Task × ℤ) :=
  if path.missing then some (st, task, -1)
  else
    match task.firstEmpty with
    | none => some (st, task, path.pointer)
    | some i => do
        let (st, ret, file) ← vfsOpen st task.cwd (some path.text) flags 0
        let task := task.setFd i file
        if ret ≠ 0 then some (st, task, -ret) else some (st, task, (i : ℕ))

def sysClose (st : State) (task : Task) (fd : ℤ) : State × Task × ℤ :=
  match slot fd with
  | none => (st, task, -1)
  | some i =>
      let (st, ret) := vfsClose st (task.fdTable i)
      (st, task.setFd i 0, ret)

/-- `count` is the length of `buf`, which fits an `unsigned int`. -/
def sysWrite (st : State) (task : Task) (fd : ℤ) (buf : Option (List UInt8)) : Option (State × ℤ) :=
  match slot fd with
  | none => some (st, -1)
  | some i =>
      if buf = none ∨ buf = some [] then some (st, -1)
      else
        let file := task.fdTable i
        if file = 0 then none
        else if (st.files file).vnode = 0 then some (st, -1)
        else
          match (st.files file).fOps with
          | none => some (st, -1)
          | some ops => ops.write st file buf

def sysRead (st : State) (task : Task) (fd : ℤ) (buf : Bool) (count : ℕ) (port : List UInt8) :
    Option (State × ℤ × List UInt8) :=
  match slot fd with
  | none => some (st, -1, [])
  | some i =>
      let file := task.fdTable i
      if file = 0 then none
      else if (st.files file).vnode = 0 then some (st, -1, [])
      else
        match (st.files file).fOps with
        | none => some (st, -1, [])
        | some ops => some (ops.read st file buf count port)

def sysLseek64 (st : State) (task : Task) (fd offset whence : ℤ) : State × ℤ :=
  match slot fd with
  | none => (st, -1)
  | some i => ((vfsLseek64 st (task.fdTable i) offset whence).1, fd)

def sysMkdir (st : State) (task : Task) (path : UserPath) : State × ℤ :=
  if path.missing then (st, -1)
  else
    let (st, ret) := vfsMkdir st task.cwd (some path.text)
    (st, if ret < 0 then ret else 0)

def sysMount (st : State) (task : Task) (target filesystem : UserPath) : State × ℤ :=
  if target.missing ∨ filesystem.missing then (st, -1)
  else
    let (st, ret) := vfsMount st task.cwd (some target.text) (some filesystem.text)
    (st, if ret < 0 then ret else 0)

/-- The target of the lookup is the `cwd` of the task itself. -/
def sysChdir (st : State) (task : Task) (path : UserPath) : State × Task × ℤ :=
  if path.missing then (st, task, -1)
  else
    let (st, ret, cells) := vfsLookup st ⟨task.cwd, 0⟩ .cwd (some path.text)
    (st, { task with cwd := cells.cwd }, if ret < 0 then ret else 0)

def devUartPath : List UInt8 := [47, 100, 101, 118, 47, 117, 97, 114, 116]

/-- `vfs_open("/dev/uart", 0, &task->fd_table[i])`, whose result is ignored. -/
def openStd (st : State) (task : Task) (i : Fin threadMaxFd) : Option (State × Task) := do
  let (st, _, file) ← vfsOpen st task.cwd (some devUartPath) 0 0
  some (st, task.setFd i file)

def openStdFiles (st : State) (task : Task) : Option (State × Task) := do
  let (st, task) ← openStd st task ⟨0, by decide⟩
  let (st, task) ← openStd st task ⟨1, by decide⟩
  openStd st task ⟨2, by decide⟩

/-- `thread_create`, as far as it concerns files: the inner `none` is a call that finds no memory. -/
def threadCreate (st : State) : Option (State × Option Task) :=
  let (st, task) := st.alloc sizeofThreadTask
  if task = 0 then some (st, none)
  else
    let (st, kernelStack) := st.alloc threadStackSize
    if kernelStack = 0 then some (st.free task, none)
    else
      let (st, userStack) := st.alloc threadStackSize
      if userStack = 0 then some ((st.free kernelStack).free task, none)
      else do
        let (st, _) := st.alloc sizeofTrapFrame
        let (st, task) ← openStdFiles st { cwd := st.root, fdTable := fun _ => 0 }
        some (st, some task)

structure Thread where
  task : ℕ
  kernelStack : ℕ
  userStack : ℕ
  sigFrame : ℕ
  files : Task

/-- `sys_fork`. It does not write `sig_frame`, `cwd` and `fd_table` of the child: `held` is what its block
holds there. -/
def sysFork (st : State) (held : ℕ × Task) : State × Option Thread :=
  let (st, task) := st.alloc sizeofThreadTask
  if task = 0 then (st, none)
  else
    let (st, kernelStack) := st.alloc threadStackSize
    if kernelStack = 0 then (st.free task, none)
    else
      let (st, userStack) := st.alloc threadStackSize
      if userStack = 0 then ((st.free kernelStack).free task, none)
      else (st, some { task, kernelStack, userStack, sigFrame := held.1, files := held.2 })

def reap (st : State) (th : Thread) : State :=
  ((st.free th.kernelStack).free th.userStack).free th.task

def killZombies (st : State) (zombies : List Thread) : State := zombies.foldl reap st

end OscKernel.Vfs
