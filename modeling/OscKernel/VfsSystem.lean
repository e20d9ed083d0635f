import OscKernel.Initramfs
import OscKernel.VfsFiles

/-!
# The file system as a system

A state is the file system with the tasks that use it. Its steps are the system calls on files in any
order by any task, the start of a thread by `thread_create` or `sys_fork`, the reaping of a thread, and what
`vfs_init` does after it has mounted the root: registering, making devices and filling an initramfs. The
invariant holds of every state reached.
-/

namespace OscKernel.Vfs

open Relation

structure Sys where
  st : State
  tasks : ℕ → Task

def Task.idle : Task := ⟨0, fun _ => 0⟩

inductive SysOp where
  | open (t : ℕ) (path : UserPath) (flags : BitVec 32)
  | close (t : ℕ) (fd : ℤ)
  | write (t : ℕ) (fd : ℤ) (buf : Option (List UInt8))
  | read (t : ℕ) (fd : ℤ) (buf : Bool) (count : ℕ) (port : List UInt8)
  | lseek (t : ℕ) (fd offset whence : ℤ)
  | mkdir (t : ℕ) (path : UserPath)
  | mount (t : ℕ) (target filesystem : UserPath)
  | chdir (t : ℕ) (path : UserPath)
  | start (t : ℕ)
  | fork (t : ℕ) (held : ℕ × Task)
  | reap (t : ℕ) (th : Thread)
  | register (name : List UInt8) (ops : VnodeOps)
  | mknod (t : ℕ) (path : UserPath) (ops : FileOps)
  | fill (t : ℕ) (path : UserPath) (entries : List Entry)

/-- The entry has room in the structures that `initramfs_init` copies it to. -/
def Entry.Fits (e : Entry) : Prop := e.name.length + 2 ≤ maxFileName ∧ e.data.length < 2 ^ 32

/-- What the block of a forked thread holds: no descriptor, and no directory but that of a task. -/
def Sys.Clean (s : Sys) (held : Task) : Prop :=
  (held.cwd = 0 ∨ ∃ u, held.cwd = (s.tasks u).cwd) ∧ ∀ i, held.fdTable i = 0

/-- The blocks are those of a thread: they are in use, and no file has its bytes there. -/
def State.HasThread (st : State) (th : Thread) : Prop :=
  (th.task, sizeofThreadTask) ∈ st.heap.live ∧ (th.kernelStack, threadStackSize) ∈ st.heap.live ∧
    (th.userStack, threadStackSize) ∈ st.heap.live ∧
    ∀ v, (v, sizeofVnode) ∈ st.heap.live → (st.internal v).type = .file →
      (st.internal v).data ≠ th.kernelStack ∧ (st.internal v).data ≠ th.userStack ∧
        (st.internal v).data ≠ th.task

/-- The steps that keep the file system well formed: an archive goes where it fits, and only devices are made
by `vfs_mknod`, as in `vfs_init`. A mount of an initramfs gets a clear block for its root node and a fork a
clean block for the child, which nothing in the source sees to. -/
def Sys.Valid (s : Sys) : SysOp → Prop
  | .mount _ target filesystem => RootClear s.st target.text filesystem.text
  | .fork _ held => s.Clean held.2
  | .reap _ th => s.st.HasThread th
  | .mknod _ _ ops => ops = .uart ∨ ops = .framebuffer
  | .fill t path entries => (∀ e ∈ entries, e.Fits) ∧
      (s.st.internal (leftoverPath s.st (s.tasks t).cwd path.text)).numChildren + entries.length ≤
        maxChildren
  | _ => True

def Sys.setTask (s : Sys) (t : ℕ) (st : State) (task : Task) : Sys :=
  ⟨st, Function.update s.tasks t task⟩

def Sys.step (s : Sys) : SysOp → Option (Sys × ℤ)
  | .open t path flags => do
      let (st, task, x) ← sysOpen s.st (s.tasks t) path flags
      some (s.setTask t st task, x)
  | .close t fd =>
      let (st, task, x) := sysClose s.st (s.tasks t) fd
      some (s.setTask t st task, x)
  | .write t fd buf => do
      let (st, x) ← sysWrite s.st (s.tasks t) fd buf
      some (⟨st, s.tasks⟩, x)
  | .read t fd buf count port => do
      let (st, x, _) ← sysRead s.st (s.tasks t) fd buf count port
      some (⟨st, s.tasks⟩, x)
  | .lseek t fd offset whence =>
      let (st, x) := sysLseek64 s.st (s.tasks t) fd offset whence
      some (⟨st, s.tasks⟩, x)
  | .mkdir t path =>
      let (st, x) := sysMkdir s.st (s.tasks t) path
      some (⟨st, s.tasks⟩, x)
  | .mount t target filesystem =>
      let (st, x) := sysMount s.st (s.tasks t) target filesystem
      some (⟨st, s.tasks⟩, x)
  | .chdir t path =>
      let (st, task, x) := sysChdir s.st (s.tasks t) path
      some (s.setTask t st task, x)
  | .start t => do
      let (st, task) ← threadCreate s.st
      match task with
      | none => some (⟨st, s.tasks⟩, -1)
      | some task => some (s.setTask t st task, 0)
  | .fork t held =>
      match sysFork s.st held with
      | (st, none) => some (⟨st, s.tasks⟩, -1)
      | (st, some th) => some (s.setTask t st th.files, 0)
  | .reap t th => some (s.setTask t (reap s.st th) Task.idle, 0)
  | .register name ops => do
      let st ← registerBackend s.st name ops
      some (⟨st, s.tasks⟩, 0)
  | .mknod t path ops => do
      let (st, ret) ← vfsMknod s.st (s.tasks t).cwd (some path.text) (some ops)
      some (⟨st, s.tasks⟩, ret)
  | .fill t path entries => do
      let (st, _, v) := lookupPath s.st (s.tasks t).cwd path.text
      let st ← initramfsInit st v entries
      some (⟨st, s.tasks⟩, 0)

def Sys.Step (s s' : Sys) : Prop := ∃ op x, s.Valid op ∧ s.step op = some (s', x)

/-- A state from which `vfs_init` starts: nothing is registered. -/
structure Boot (st : State) : Prop where
  heap : st.heap.Ok
  filesystems : st.filesystems = []

def Sys.Initial (s : Sys) : Prop :=
  ∃ st, Boot st ∧ mountRoot st = some s.st ∧ ∀ t, s.tasks t = Task.idle

def Sys.Reachable (s : Sys) : Prop := ∃ s₀, Sys.Initial s₀ ∧ ReflTransGen Sys.Step s₀ s

structure Sys.Inv (s : Sys) (T : Set ℕ) : Prop where
  tree : Tree s.st T
  cwd : ∀ t, (s.tasks t).cwd = 0 ∨ (s.tasks t).cwd ∈ T
  handle : ∀ t i, (s.tasks t).fdTable i ≠ 0 → HandleOk s.st T ((s.tasks t).fdTable i)
  distinct : ∀ t i u j, (s.tasks t).fdTable i ≠ 0 → (s.tasks t).fdTable i = (s.tasks u).fdTable j →
    t = u ∧ i = j

variable {s s' : Sys} {st' : State} {T T' : Set ℕ} {t : ℕ} {p v file : ℕ} {x : ℤ}

theorem HandleOk.grows {st : State} (hp : HandleOk st T p) (hg : Grows st st' T T') :
    HandleOk st' T' p := by
  obtain ⟨hlive, hvnode, hops⟩ := hg.handle p hp.live
  refine ⟨hlive, ?_, ?_⟩
  · rw [hvnode]
    exact hp.vnode.imp_right fun hin => hg.subset hin
  · rw [hvnode, hops]
    intro htmpfs hin
    have hT : (st.files p).vnode ∈ T := by
      refine hp.vnode.resolve_left fun h0 => hg.tree.ne_zero hin h0
    rw [hg.vOps _ hT]
    exact hp.tmpfs htmpfs hT

/-- A step that changes no task. -/
theorem Sys.Inv.grows (h : s.Inv T) (hg : Grows s.st st' T T') : Sys.Inv ⟨st', s.tasks⟩ T' where
  tree := hg.tree
  cwd t := (h.cwd t).imp_right fun hin => hg.subset hin
  handle t i hne := (h.handle t i hne).grows hg
  distinct := h.distinct

theorem Sys.setTask_same (s : Sys) (t : ℕ) : s.setTask t st' (s.tasks t) = ⟨st', s.tasks⟩ := by
  rw [Sys.setTask, Function.update_eq_self]

/-- What a step leaves: the invariant over no fewer vnodes, and what is mounted. -/
structure Sys.Next (s s' : Sys) (T T' : Set ℕ) : Prop where
  inv : s'.Inv T'
  subset : T ⊆ T'
  mounts : MountsKept s.st s'.st T T'

theorem Sys.Next.trans {s₁ : Sys} {T₁ : Set ℕ} (h₁ : Sys.Next s s₁ T T₁) (h₂ : Sys.Next s₁ s' T₁ T') :
    Sys.Next s s' T T' :=
  ⟨h₂.inv, h₁.subset.trans h₂.subset, h₁.mounts.trans h₂.mounts h₁.subset⟩

theorem Sys.Inv.same (h : s.Inv T) : Sys.Next s s T T :=
  ⟨h, Set.Subset.rfl, MountsKept.refl s.st T⟩

theorem Sys.Inv.next (h : s.Inv T) (hg : Grows s.st st' T T') : Sys.Next s ⟨st', s.tasks⟩ T T' :=
  ⟨h.grows hg, hg.subset, hg.mounts⟩

/-- A step whose result goes into a task. -/
theorem Sys.Inv.nextTask {task : Task} (h' : (s.setTask t st' task).Inv T') (hg : Grows s.st st' T T') :
    Sys.Next s (s.setTask t st' task) T T' :=
  ⟨h', hg.subset, hg.mounts⟩

/-- A step of a task on itself. -/
theorem Sys.Inv.setTask {task : Task} (h : s.Inv T) (hcwd : task.cwd = 0 ∨ task.cwd ∈ T)
    (hhandle : ∀ i, task.fdTable i ≠ 0 → HandleOk s.st T (task.fdTable i))
    (hself : ∀ i j, task.fdTable i ≠ 0 → task.fdTable i = task.fdTable j → i = j)
    (hother : ∀ i u j, u ≠ t → task.fdTable i ≠ 0 → task.fdTable i ≠ (s.tasks u).fdTable j) :
    (s.setTask t s.st task).Inv T where
  tree := h.tree
  cwd u := by
    by_cases hu : u = t
    · simpa [Sys.setTask, hu] using hcwd
    · simpa [Sys.setTask, hu] using h.cwd u
  handle u i := by
    by_cases hu : u = t
    · simpa [Sys.setTask, hu] using hhandle i
    · simpa [Sys.setTask, hu] using h.handle u i
  distinct u i w j := by
    by_cases hu : u = t <;> by_cases hw : w = t
    · simpa [Sys.setTask, hu, hw] using hself i j
    · simp only [Sys.setTask, hu, Function.update_self, Function.update_of_ne hw]
      exact fun hne heq => absurd heq (hother i w j hw hne)
    · simp only [Sys.setTask, hw, Function.update_self, Function.update_of_ne hu]
      exact fun hne heq => absurd heq.symm (hother j u i hu fun h0 => hne (heq.trans h0))
    · simpa [Sys.setTask, hu, hw] using h.distinct u i w j

theorem Task.firstEmpty_spec {task : Task} {i : Fin threadMaxFd} (h : task.firstEmpty = some i) :
    task.fdTable i = 0 ∧ ∀ j < i, task.fdTable j ≠ 0 := by
  rw [Task.firstEmpty] at h
  obtain ⟨hi, as, bs, heq, has⟩ := List.find?_eq_some_iff_append.1 h
  refine ⟨by simpa using hi, fun j hj => ?_⟩
  simpa using has j (mem_of_finRange_split heq hj)

/-- A new handle goes into a slot of `t`. -/
theorem Sys.Inv.setFd {i : Fin threadMaxFd} {flags : BitVec 32} (h : s.Inv T) {st₀ : State}
    (hold : ∀ u j, (s.tasks u).fdTable j ≠ 0 → ((s.tasks u).fdTable j, sizeofFile) ∈ st₀.heap.live)
    (hv : v ∈ T) (hnew : NewHandle st₀ s.st file v flags) :
    (s.setTask t s.st ((s.tasks t).setFd i file)).Inv T := by
  have hhandle := hnew.handleOk h.tree hv
  have hne : ∀ u j, (s.tasks u).fdTable j ≠ file := by
    intro u j heq
    by_cases h0 : (s.tasks u).fdTable j = 0
    · exact hnew.ne_zero (heq.symm.trans h0)
    · exact hnew.fresh _ (hold u j h0) heq
  refine h.setTask (h.cwd t) ?_ ?_ ?_
  · intro j hj
    by_cases hji : j = i
    · simpa [Task.setFd, hji] using hhandle
    · simp only [Task.setFd, Function.update_of_ne hji] at hj ⊢
      exact h.handle t j hj
  · intro j k hj heq
    by_cases hji : j = i <;> by_cases hki : k = i
    · rw [hji, hki]
    · simp only [Task.setFd, hji, Function.update_self, Function.update_of_ne hki] at heq
      exact absurd heq.symm (hne t k)
    · simp only [Task.setFd, hki, Function.update_self, Function.update_of_ne hji] at heq
      exact absurd heq (hne t j)
    · simp only [Task.setFd, Function.update_of_ne hji, Function.update_of_ne hki] at hj heq
      exact (h.distinct t j t k hj heq).2
  · intro j u k hu hj heq
    by_cases hji : j = i
    · simp only [Task.setFd, hji, Function.update_self] at heq
      exact hne u k heq.symm
    · simp only [Task.setFd, Function.update_of_ne hji] at hj heq
      exact hu (h.distinct t j u k hj heq).1.symm

/-- A slot is emptied. -/
theorem Sys.Inv.clearFd (h : s.Inv T) (t : ℕ) (i : Fin threadMaxFd) :
    (s.setTask t s.st ((s.tasks t).setFd i 0)).Inv T := by
  have hslot : ∀ j, ((s.tasks t).setFd i 0).fdTable j ≠ 0 →
      j ≠ i ∧ ((s.tasks t).setFd i 0).fdTable j = (s.tasks t).fdTable j := by
    intro j hj
    by_cases hji : j = i
    · simp [Task.setFd, hji] at hj
    · exact ⟨hji, Function.update_of_ne hji _ _⟩
  refine h.setTask (h.cwd t) ?_ ?_ ?_
  · intro j hj
    have heq := (hslot j hj).2
    rw [heq] at hj ⊢
    exact h.handle t j hj
  · intro j k hj heq
    have hk : ((s.tasks t).setFd i 0).fdTable k ≠ 0 := heq ▸ hj
    have hjeq := (hslot j hj).2
    rw [hjeq, (hslot k hk).2] at heq
    rw [hjeq] at hj
    exact (h.distinct t j t k hj heq).2
  · intro j u k hu hj heq
    have hjeq := (hslot j hj).2
    rw [hjeq] at hj heq
    exact hu (h.distinct t j u k hj heq).1.symm

theorem HandleOk.congr {st : State} (hp : HandleOk st T p) (hlive : (p, sizeofFile) ∈ st'.heap.live)
    (hfile : st'.files p = st.files p) (hvnodes : st'.vnodes = st.vnodes) : HandleOk st' T p := by
  refine ⟨hlive, ?_, ?_⟩
  · rw [hfile]
    exact hp.vnode
  · rw [hfile, hvnodes]
    exact hp.tmpfs

/-- A handle that no slot has is cleared or freed. -/
theorem Sys.Inv.drop (h : s.Inv T) (hno : ∀ t i, (s.tasks t).fdTable i ≠ 0 → (s.tasks t).fdTable i ≠ file)
    (htree : Tree st' T) (hlive : ∀ p ≠ file, (p, sizeofFile) ∈ s.st.heap.live →
      (p, sizeofFile) ∈ st'.heap.live) (hfiles : ∀ p ≠ file, st'.files p = s.st.files p)
    (hvnodes : st'.vnodes = s.st.vnodes) : Sys.Inv ⟨st', s.tasks⟩ T where
  tree := htree
  cwd := h.cwd
  handle t i hne := by
    have hfile := hno t i hne
    exact (h.handle t i hne).congr (hlive _ hfile (h.handle t i hne).live) (hfiles _ hfile) hvnodes
  distinct := h.distinct

/-- A handle that no slot has is closed. -/
theorem Sys.Inv.closed (h : s.Inv T) (hno : ∀ t i, (s.tasks t).fdTable i ≠ 0 → (s.tasks t).fdTable i ≠ file)
    (hfile : file = 0 ∨ (file, sizeofFile) ∈ s.st.heap.live) :
    Sys.Inv ⟨(vfsClose s.st file).1, s.tasks⟩ T := by
  rcases vfsClose_cases s.st file with ⟨r, heq, -⟩ | heq | heq
  · rw [heq]
    exact h
  · rw [heq]
    exact h.drop hno (h.tree.setFile file fun _ => ⟨0, 0, none, 0⟩) (fun _ _ hp => hp)
      (fun p hp => Function.update_of_ne hp _ _) rfl
  · by_cases h0 : file = 0
    · rw [h0, vfsClose, if_pos rfl]
      exact h
    rw [heq]
    exact h.drop hno (h.tree.free_handle (hfile.resolve_left h0))
      (fun p hp hlive => Heap.mem_free.2 ⟨hlive, hp⟩) (fun _ _ => rfl) rfl

theorem Tree.vfsClose_mounts {st : State} (h : Tree st T) (file : ℕ) :
    MountsKept st (vfsClose st file).1 T T := by
  rcases vfsClose_cases st file with ⟨r, heq, -⟩ | heq | heq <;> rw [heq]
  · exact MountsKept.refl st T
  · exact MountsKept.same h rfl rfl (fun _ => SameShape.refl _) rfl rfl rfl
  · exact MountsKept.same h rfl rfl (fun _ => SameShape.refl _) rfl rfl rfl

theorem Sys.Inv.open (h : s.Inv T) {path : UserPath} {flags : BitVec 32} {task' : Task}
    (heq : sysOpen s.st (s.tasks t) path flags = some (st', task', x)) :
    ∃ T', Sys.Next s (s.setTask t st' task') T T' := by
  rw [sysOpen] at heq
  split_ifs at heq with hmissing
  · obtain ⟨rfl, rfl, -⟩ := by simpa only [Option.some.injEq, Prod.mk.injEq] using heq
    exact ⟨T, by rw [Sys.setTask_same]; exact h.same⟩
  cases hfirst : (s.tasks t).firstEmpty with
  | none =>
      rw [hfirst] at heq
      obtain ⟨rfl, rfl, -⟩ := by simpa only [Option.some.injEq, Prod.mk.injEq] using heq
      exact ⟨T, by rw [Sys.setTask_same]; exact h.same⟩
  | some i =>
      rw [hfirst] at heq
      obtain ⟨⟨st₁, ret, file⟩, hopen, heq⟩ := Option.bind_eq_some_iff.1 heq
      obtain ⟨T', hg, ⟨hr, rfl⟩ | ⟨rfl, v, hv, hnew⟩⟩ := vfsOpen_some h.tree (h.cwd t) path.nul hopen
      · simp only [if_pos hr.ne] at heq
        obtain ⟨rfl, rfl, -⟩ := by simpa only [Option.some.injEq, Prod.mk.injEq] using heq
        have hsame : (s.tasks t).setFd i 0 = s.tasks t := by
          have hi := (Task.firstEmpty_spec hfirst).1
          rw [Task.setFd, ← hi, Function.update_eq_self]
        rw [hsame, Sys.setTask_same]
        exact ⟨T', h.next hg⟩
      · simp only [if_neg (not_not.2 (rfl : (0 : ℤ) = 0))] at heq
        obtain ⟨rfl, rfl, -⟩ := by simpa only [Option.some.injEq, Prod.mk.injEq] using heq
        have h' := (h.grows hg).setFd (t := t) (i := i) (fun u j hne => (h.handle u j hne).live) hv hnew
        exact ⟨T', Sys.Inv.nextTask h' hg⟩

theorem Sys.Inv.close (h : s.Inv T) (t : ℕ) (fd : ℤ) :
    Sys.Next s (s.setTask t (sysClose s.st (s.tasks t) fd).1 (sysClose s.st (s.tasks t) fd).2.1) T T := by
  rw [sysClose]
  cases slot fd with
  | none =>
      rw [Sys.setTask_same]
      exact h.same
  | some i =>
      have hclear := h.clearFd t i
      have hno : ∀ u j, ((s.setTask t s.st ((s.tasks t).setFd i 0)).tasks u).fdTable j ≠ 0 →
          ((s.setTask t s.st ((s.tasks t).setFd i 0)).tasks u).fdTable j ≠ (s.tasks t).fdTable i := by
        intro u j hne heq
        by_cases hu : u = t
        · by_cases hj : j = i
          · simp [Sys.setTask, Task.setFd, hu, hj] at hne
          · simp only [Sys.setTask, Task.setFd, hu, Function.update_self,
              Function.update_of_ne hj] at hne heq
            exact hj (h.distinct t j t i hne heq).2
        · simp only [Sys.setTask, Function.update_of_ne hu] at hne heq
          exact hu (h.distinct u j t i hne heq).1
      have hfile : (s.tasks t).fdTable i = 0 ∨ ((s.tasks t).fdTable i, sizeofFile) ∈ s.st.heap.live := by
        by_cases h0 : (s.tasks t).fdTable i = 0
        · exact Or.inl h0
        · exact Or.inr (h.handle t i h0).live
      exact ⟨hclear.closed hno hfile, Set.Subset.rfl, h.tree.vfsClose_mounts _⟩

theorem Sys.Inv.write (h : s.Inv T) {fd : ℤ} {buf : Option (List UInt8)}
    (heq : sysWrite s.st (s.tasks t) fd buf = some (st', x)) : Sys.Next s ⟨st', s.tasks⟩ T T := by
  rw [sysWrite] at heq
  cases hslot : slot fd with
  | none =>
      rw [hslot] at heq
      obtain ⟨rfl, -⟩ := Prod.mk.inj (Option.some.inj heq)
      exact h.same
  | some i =>
      rw [hslot] at heq
      dsimp only at heq
      by_cases hbuf : buf = none ∨ buf = some []
      · rw [if_pos hbuf] at heq
        obtain ⟨rfl, -⟩ := Prod.mk.inj (Option.some.inj heq)
        exact h.same
      rw [if_neg hbuf] at heq
      by_cases h0 : (s.tasks t).fdTable i = 0
      · rw [if_pos h0] at heq
        cases heq
      rw [if_neg h0] at heq
      by_cases hvnode : (s.st.files ((s.tasks t).fdTable i)).vnode = 0
      · rw [if_pos hvnode] at heq
        obtain ⟨rfl, -⟩ := Prod.mk.inj (Option.some.inj heq)
        exact h.same
      rw [if_neg hvnode] at heq
      cases hops : (s.st.files ((s.tasks t).fdTable i)).fOps with
      | none =>
          rw [hops] at heq
          obtain ⟨rfl, -⟩ := Prod.mk.inj (Option.some.inj heq)
          exact h.same
      | some ops =>
          rw [hops] at heq
          exact h.next (write_grows h.tree (h.handle t i h0) hops heq)

theorem Sys.Inv.read (h : s.Inv T) {fd : ℤ} {buf : Bool} {count : ℕ} {port bytes : List UInt8}
    (heq : sysRead s.st (s.tasks t) fd buf count port = some (st', x, bytes)) :
    Sys.Next s ⟨st', s.tasks⟩ T T := by
  rw [sysRead] at heq
  cases hslot : slot fd with
  | none =>
      rw [hslot] at heq
      obtain ⟨rfl, -⟩ := Prod.mk.inj (Option.some.inj heq)
      exact h.same
  | some i =>
      rw [hslot] at heq
      dsimp only at heq
      by_cases h0 : (s.tasks t).fdTable i = 0
      · rw [if_pos h0] at heq
        cases heq
      rw [if_neg h0] at heq
      by_cases hvnode : (s.st.files ((s.tasks t).fdTable i)).vnode = 0
      · rw [if_pos hvnode] at heq
        obtain ⟨rfl, -⟩ := Prod.mk.inj (Option.some.inj heq)
        exact h.same
      rw [if_neg hvnode] at heq
      cases hops : (s.st.files ((s.tasks t).fdTable i)).fOps with
      | none =>
          rw [hops] at heq
          obtain ⟨rfl, -⟩ := Prod.mk.inj (Option.some.inj heq)
          exact h.same
      | some ops =>
          rw [hops] at heq
          have hg := read_grows h.tree ops ((s.tasks t).fdTable i) buf count port
          rw [Option.some.inj heq] at hg
          exact h.next hg

theorem Sys.Inv.lseek (h : s.Inv T) (t : ℕ) (fd offset whence : ℤ) :
    Sys.Next s ⟨(sysLseek64 s.st (s.tasks t) fd offset whence).1, s.tasks⟩ T T := by
  rw [sysLseek64]
  cases slot fd with
  | none => exact h.same
  | some i =>
      dsimp only
      rw [vfsLseek64]
      split_ifs with h0
      · exact h.same
      cases (s.st.files ((s.tasks t).fdTable i)).fOps with
      | none => exact h.same
      | some ops => exact h.next (lseek64_grows h.tree ops _ offset whence)

theorem Sys.Inv.mkdir (h : s.Inv T) (t : ℕ) (path : UserPath) :
    ∃ T', Sys.Next s ⟨(sysMkdir s.st (s.tasks t) path).1, s.tasks⟩ T T' := by
  rw [sysMkdir]
  split_ifs with hmissing
  · exact ⟨T, h.same⟩
  rcases vfsMkdir_cases h.tree (h.cwd t) path.nul with
    ⟨st', r, heq, -, hext⟩ | ⟨st', dir, v, heq, hdir, -, -, hc⟩
  · simp only [heq]
    exact ⟨T, h.next (Grows.extend h.tree hext)⟩
  · simp only [heq]
    exact ⟨_, h.next (Grows.created h.tree hdir hc)⟩

theorem Sys.Inv.mount (h : s.Inv T) (t : ℕ) {target filesystem : UserPath}
    (hready : RootClear s.st target.text filesystem.text) :
    ∃ T', Sys.Next s ⟨(sysMount s.st (s.tasks t) target filesystem).1, s.tasks⟩ T T' := by
  rw [sysMount]
  split_ifs with hmissing
  · exact ⟨T, h.same⟩
  rcases vfsMount_cases h.tree (h.cwd t) target.nul hready with
    ⟨st', r, heq, -, hext⟩ | ⟨st', v, m, r, n, fs, ops, heq, -, -, hres, hmount, hparent, -, hm⟩
  · simp only [heq]
    exact ⟨T, h.next (Grows.extend h.tree hext)⟩
  · simp only [heq]
    have hv := h.tree.resolvePath_mem (h.cwd t) hres
    have hroot : v ≠ s.st.root := by
      rintro rfl
      rw [h.tree.rootMount.2] at hparent
      cases hparent
    exact ⟨_, h.next (hm.grows h.tree hv hroot hmount hparent)⟩

/-- Whatever `vfs_lookup` leaves in its target is a vnode of the tree. -/
theorem vfsLookup_cwd {st : State} {path : List UInt8} (h : Tree st T) (cells : Cells)
    (hnul : (0 : UInt8) ∉ path) :
    Grows st (vfsLookup st cells .cwd (some path)).1 T T ∧
      ((vfsLookup st cells .cwd (some path)).2.2.cwd = 0 ∨
        (vfsLookup st cells .cwd (some path)).2.2.cwd ∈ T) := by
  by_cases hcopy : CopyOk st path
  · have hg := Grows.extend h (afterLookup_extends h.heap hcopy)
    rw [vfsLookup_eq hnul hcopy]
    split_ifs with hrel
    · exact ⟨hg, Or.inl rfl⟩
    · refine ⟨hg, h.leftover_mem ?_⟩
      have habs : isAbsolute path = true := by
        by_contra hne
        exact hrel ⟨hne, rfl⟩
      rw [startVnode, if_pos habs]
      exact h.root
  · have hcopy' : (strdup st path).2 = 0 := not_not.1 hcopy
    simp only [vfsLookup, if_pos hcopy']
    exact ⟨Grows.extend h (strdup_extends h.heap hcopy), Or.inl rfl⟩

theorem Sys.Inv.chdir (h : s.Inv T) (t : ℕ) (path : UserPath) :
    Sys.Next s (s.setTask t (sysChdir s.st (s.tasks t) path).1 (sysChdir s.st (s.tasks t) path).2.1)
      T T := by
  rw [sysChdir]
  split_ifs with hmissing
  · rw [Sys.setTask_same]
    exact h.same
  obtain ⟨hg, hcwd⟩ := vfsLookup_cwd h.tree ⟨(s.tasks t).cwd, 0⟩ path.nul
  refine Sys.Inv.nextTask ((h.grows hg).setTask hcwd (fun i hne => (h.handle t i hne).grows hg) ?_ ?_) hg
  · exact fun i j hne heq => (h.distinct t i t j hne heq).2
  · exact fun i u j hu hne heq => hu (h.distinct t i u j hne heq).1.symm

theorem Sys.setTask_setTask (s : Sys) (t : ℕ) (st st' : State) (task task' : Task) :
    (s.setTask t st task).setTask t st' task' = s.setTask t st' task' := by
  simp only [Sys.setTask, Function.update_idem]

theorem Sys.tasks_setTask (s : Sys) (t : ℕ) (st : State) (task : Task) :
    (s.setTask t st task).tasks t = task := Function.update_self ..

/-- One of the three files of a new thread; when it cannot be opened, its slot is empty. -/
theorem Sys.Inv.openStd (h : s.Inv T) {i : Fin threadMaxFd} {task' : Task}
    (heq : openStd s.st (s.tasks t) i = some (st', task')) :
    ∃ T', Sys.Next s (s.setTask t st' task') T T' := by
  rw [Vfs.openStd] at heq
  obtain ⟨⟨st₁, ret, file⟩, hopen, heq⟩ := Option.bind_eq_some_iff.1 heq
  obtain ⟨rfl, rfl⟩ := Prod.mk.inj (Option.some.inj heq)
  have hnul : (0 : UInt8) ∉ devUartPath := by decide
  obtain ⟨T', hg, ⟨-, rfl⟩ | ⟨-, v, hv, hnew⟩⟩ := vfsOpen_some h.tree (h.cwd t) hnul hopen
  · exact ⟨T', Sys.Inv.nextTask ((h.grows hg).clearFd t i) hg⟩
  · have h' := (h.grows hg).setFd (t := t) (i := i) (fun u j hne => (h.handle u j hne).live) hv hnew
    exact ⟨T', Sys.Inv.nextTask h' hg⟩

theorem Sys.Inv.openStdFiles (h : s.Inv T) {task' : Task}
    (heq : openStdFiles s.st (s.tasks t) = some (st', task')) :
    ∃ T', Sys.Next s (s.setTask t st' task') T T' := by
  rw [Vfs.openStdFiles] at heq
  obtain ⟨⟨st₁, task₁⟩, heq₁, heq⟩ := Option.bind_eq_some_iff.1 heq
  obtain ⟨⟨st₂, task₂⟩, heq₂, heq₃⟩ := Option.bind_eq_some_iff.1 heq
  obtain ⟨T₁, h₁⟩ := h.openStd heq₁
  obtain ⟨T₂, h₂⟩ := h₁.inv.openStd (t := t) (by rw [Sys.tasks_setTask]; exact heq₂)
  rw [Sys.setTask_setTask] at h₂
  obtain ⟨T₃, h₃⟩ := h₂.inv.openStd (t := t) (by rw [Sys.tasks_setTask]; exact heq₃)
  rw [Sys.setTask_setTask] at h₃
  exact ⟨T₃, (h₁.trans h₂).trans h₃⟩

theorem alloc_free_extends {st st₁ : State} {p k : ℕ} (hfresh : Extends.Fresh st p)
    (he : Extends st st₁ [(p, k)]) : Extends st (st₁.free p) [] :=
  he.free (fun _ hb => absurd hb List.not_mem_nil) hfresh

/-- The first blocks of a thread: it gets a control block and both stacks, or it keeps none of them. -/
inductive TakesStacks (st : State) : Prop
  | noTask {st₁ : State} (h₁ : st.alloc sizeofThreadTask = (st₁, 0)) (ext : Extends st st₁ [])
  | noKernelStack {st₁ st₂ : State} {task : ℕ} (h₁ : st.alloc sizeofThreadTask = (st₁, task))
      (htask : task ≠ 0) (h₂ : st₁.alloc threadStackSize = (st₂, 0)) (ext : Extends st (st₂.free task) [])
  | noUserStack {st₁ st₂ st₃ : State} {task kernelStack : ℕ} (h₁ : st.alloc sizeofThreadTask = (st₁, task))
      (htask : task ≠ 0) (h₂ : st₁.alloc threadStackSize = (st₂, kernelStack)) (hkernel : kernelStack ≠ 0)
      (h₃ : st₂.alloc threadStackSize = (st₃, 0)) (ext : Extends st ((st₃.free kernelStack).free task) [])
  | all {st₁ st₂ st₃ : State} {task kernelStack userStack : ℕ} (h₁ : st.alloc sizeofThreadTask = (st₁, task))
      (htask : task ≠ 0) (h₂ : st₁.alloc threadStackSize = (st₂, kernelStack)) (hkernel : kernelStack ≠ 0)
      (h₃ : st₂.alloc threadStackSize = (st₃, userStack)) (huser : userStack ≠ 0)
      (ext : Extends st st₃ [(userStack, threadStackSize), (kernelStack, threadStackSize),
        (task, sizeofThreadTask)])

theorem takesStacks {st : State} (hok : st.heap.Ok) : TakesStacks st := by
  rcases State.alloc_cases hok (n := sizeofThreadTask) (by decide) with
    ⟨st₁, h₁, hext₁⟩ | ⟨st₁, task, h₁, htask, hfresh₁, hext₁, -⟩
  · exact TakesStacks.noTask h₁ hext₁
  rcases State.alloc_cases hext₁.ok (n := threadStackSize) (by decide) with
    ⟨st₂, h₂, hext₂⟩ | ⟨st₂, kernelStack, h₂, hkernel, hfresh₂, hext₂, -⟩
  · exact TakesStacks.noKernelStack h₁ htask h₂ (alloc_free_extends hfresh₁ (hext₁.trans hext₂))
  rcases State.alloc_cases hext₂.ok (n := threadStackSize) (by decide) with
    ⟨st₃, h₃, hext₃⟩ | ⟨st₃, userStack, h₃, huser, -, hext₃, -⟩
  · have hback := alloc_free_extends hfresh₂ (hext₂.trans hext₃)
    exact TakesStacks.noUserStack h₁ htask h₂ hkernel h₃ (alloc_free_extends hfresh₁ (hext₁.trans hback))
  · exact TakesStacks.all h₁ htask h₂ hkernel h₃ huser ((hext₁.trans hext₂).trans hext₃)

/-- `thread_create` finds no memory, or opens the files of a thread that has the root as its `cwd`. -/
theorem threadCreate_cases {st : State} (hok : st.heap.Ok) :
    (∃ st', threadCreate st = some (st', none) ∧ Extends st st' []) ∨
      ∃ st' bs, Extends st st' bs ∧ threadCreate st =
        (openStdFiles st' ⟨st'.root, fun _ => 0⟩).map fun r => (r.1, some r.2) := by
  cases takesStacks hok with
  | noTask h₁ hext =>
      refine Or.inl ⟨_, ?_, hext⟩
      simp only [threadCreate, h₁, if_true]
  | noKernelStack h₁ htask h₂ hext =>
      refine Or.inl ⟨_, ?_, hext⟩
      simp only [threadCreate, h₁, if_neg htask, h₂, if_true]
  | noUserStack h₁ htask h₂ hkernel h₃ hext =>
      refine Or.inl ⟨_, ?_, hext⟩
      simp only [threadCreate, h₁, if_neg htask, h₂, if_neg hkernel, h₃, if_true]
  | @all _ _ st₃ _ _ _ h₁ htask h₂ hkernel h₃ huser hext =>
      obtain ⟨st₄, bs, hst₄, hext₄⟩ : ∃ st₄ bs, st₄ = (st₃.alloc sizeofTrapFrame).1 ∧ Extends st₃ st₄ bs := by
        rcases State.alloc_cases hext.ok (n := sizeofTrapFrame) (by decide) with
          ⟨st₄, heq₄, hext₄⟩ | ⟨st₄, p, heq₄, -, -, hext₄, -⟩
        · exact ⟨st₄, _, by rw [heq₄], hext₄⟩
        · exact ⟨st₄, _, by rw [heq₄], hext₄⟩
      refine Or.inr ⟨st₄, _, hext.trans hext₄, ?_⟩
      simp only [threadCreate, h₁, if_neg htask, h₂, if_neg hkernel, h₃, if_neg huser]
      rw [hst₄]
      change ((openStdFiles _ _).bind fun r => some (r.1, some r.2)) = _
      rw [Option.map_eq_bind]
      rfl

/-- A task that has no descriptor takes the number `t`. -/
theorem Sys.Inv.replace {task : Task} (h : s.Inv T) (t : ℕ) (hcwd : task.cwd = 0 ∨ task.cwd ∈ T)
    (htable : ∀ i, task.fdTable i = 0) : (s.setTask t s.st task).Inv T :=
  h.setTask hcwd (fun i hne => absurd (htable i) hne) (fun i _ hne => absurd (htable i) hne)
    fun i _ _ _ hne => absurd (htable i) hne

theorem Sys.Inv.start (h : s.Inv T) {task : Option Task}
    (heq : threadCreate s.st = some (st', task)) :
    ∃ T', Sys.Next s (match task with
      | none => ⟨st', s.tasks⟩
      | some task => s.setTask t st' task) T T' := by
  rcases threadCreate_cases h.tree.heap with ⟨st₁, hfail, hext⟩ | ⟨st₁, bs, hext, hmap⟩
  · rw [hfail] at heq
    obtain ⟨rfl, rfl⟩ := Prod.mk.inj (Option.some.inj heq)
    exact ⟨T, h.next (Grows.extend h.tree hext)⟩
  · rw [hmap] at heq
    obtain ⟨⟨st₂, task₂⟩, hfiles, heq⟩ := Option.map_eq_some_iff.1 heq
    obtain ⟨rfl, rfl⟩ := Prod.mk.inj heq
    have hg := Grows.extend h.tree hext
    have h₁ := h.grows hg
    have hnew : ((Sys.mk st₁ s.tasks).setTask t st₁ ⟨st₁.root, fun _ => 0⟩).Inv T :=
      h₁.replace t (Or.inr h₁.tree.root) fun _ => rfl
    obtain ⟨T', h₂⟩ := hnew.openStdFiles (t := t) (by rw [Sys.tasks_setTask]; exact hfiles)
    rw [Sys.setTask_setTask] at h₂
    exact ⟨T', Sys.Next.trans (Sys.Inv.nextTask hnew hg) h₂⟩

/-- `sys_fork` finds no memory, or the child gets the files that its block holds. -/
theorem sysFork_cases {st : State} (hok : st.heap.Ok) (held : ℕ × Task) :
    (∃ st', sysFork st held = (st', none) ∧ Extends st st' []) ∨
      ∃ st' th bs, sysFork st held = (st', some th) ∧ th.files = held.2 ∧ Extends st st' bs := by
  cases takesStacks hok with
  | noTask h₁ hext =>
      refine Or.inl ⟨_, ?_, hext⟩
      simp only [sysFork, h₁, if_true]
  | noKernelStack h₁ htask h₂ hext =>
      refine Or.inl ⟨_, ?_, hext⟩
      simp only [sysFork, h₁, if_neg htask, h₂, if_true]
  | noUserStack h₁ htask h₂ hkernel h₃ hext =>
      refine Or.inl ⟨_, ?_, hext⟩
      simp only [sysFork, h₁, if_neg htask, h₂, if_neg hkernel, h₃, if_true]
  | @all _ _ st₃ task kernelStack userStack h₁ htask h₂ hkernel h₃ huser hext =>
      refine Or.inr ⟨st₃, ⟨task, kernelStack, userStack, held.1, held.2⟩, _, ?_, rfl, hext⟩
      simp only [sysFork, h₁, if_neg htask, h₂, if_neg hkernel, h₃, if_neg huser]

theorem Sys.Clean.cwd {held : Task} (hc : s.Clean held) (h : s.Inv T) : held.cwd = 0 ∨ held.cwd ∈ T := by
  rcases hc.1 with h0 | ⟨u, hu⟩
  · exact Or.inl h0
  · rw [hu]
    exact h.cwd u

/-- A fork takes blocks from the heap, and the child, if there is one, has the files that its block holds. -/
theorem Sys.fork_cases {held : ℕ × Task} (hok : s.st.heap.Ok)
    (heq : s.step (.fork t held) = some (s', x)) :
    ∃ st₁ bs, Extends s.st st₁ bs ∧ (s' = ⟨st₁, s.tasks⟩ ∨ s' = s.setTask t st₁ held.2) := by
  rw [Sys.step] at heq
  rcases sysFork_cases hok held with ⟨st₁, hfork, hext⟩ | ⟨st₁, th, bs, hfork, hfiles, hext⟩
  · rw [hfork] at heq
    obtain ⟨rfl, -⟩ := Prod.mk.inj (Option.some.inj heq)
    exact ⟨st₁, [], hext, Or.inl rfl⟩
  · rw [hfork] at heq
    obtain ⟨rfl, -⟩ := Prod.mk.inj (Option.some.inj heq)
    rw [hfiles]
    exact ⟨st₁, bs, hext, Or.inr rfl⟩

theorem Sys.Inv.fork (h : s.Inv T) {held : ℕ × Task} (hclean : s.Clean held.2)
    (heq : s.step (.fork t held) = some (s', x)) : Sys.Next s s' T T := by
  obtain ⟨st₁, bs, hext, rfl | rfl⟩ := Sys.fork_cases h.tree.heap heq
  · exact h.next (Grows.extend h.tree hext)
  · have hg := Grows.extend h.tree hext
    exact Sys.Inv.nextTask ((h.grows hg).replace t (hclean.cwd h) hclean.2) hg

/-- The three blocks of a thread lie beside the tree. -/
theorem State.HasThread.offTree {st : State} {th : Thread} (hh : st.HasThread th) (h : Tree st T) :
    OffTree st T th.kernelStack ∧ OffTree st T th.userStack ∧ OffTree st T th.task := by
  obtain ⟨htask, hkernel, huser, hdata⟩ := hh
  have hsize : ∀ {q n}, (q, n) ∈ st.heap.live → ∀ k, (q, k) ∈ st.heap.live → k = n := fun hq k hk =>
    congrArg Prod.snd (h.heap.eq_of_start hk hq rfl)
  refine ⟨⟨fun k hk => ?_, fun v hv hf => (hdata v (h.vnode v hv) hf).1⟩,
    ⟨fun k hk => ?_, fun v hv hf => (hdata v (h.vnode v hv) hf).2.1⟩,
    ⟨fun k hk => ?_, fun v hv hf => (hdata v (h.vnode v hv) hf).2.2⟩⟩
  · rw [hsize hkernel k hk]
    decide
  · rw [hsize huser k hk]
    decide
  · rw [hsize htask k hk]
    decide

theorem State.HasThread.grows {st : State} {th : Thread} (hh : st.HasThread th) (h : Tree st T) :
    Grows st (Vfs.reap st th) T T := by
  obtain ⟨hkernel, huser, htask⟩ := hh.offTree h
  have h₁ := Grows.offTree h hkernel
  have h₂ := Grows.offTree h₁.tree (huser.free _)
  exact (h₁.trans h₂).trans (Grows.offTree h₂.tree ((htask.free _).free _))

theorem Sys.Inv.reap (h : s.Inv T) (t : ℕ) {th : Thread} (hh : s.st.HasThread th) :
    Sys.Next s (s.setTask t (Vfs.reap s.st th) Task.idle) T T :=
  have hg := hh.grows h.tree
  Sys.Inv.nextTask ((h.grows hg).replace t (Or.inl rfl) fun _ => rfl) hg

theorem Sys.Inv.mknod (h : s.Inv T) {path : UserPath} {ops : FileOps}
    (hdev : ops = .uart ∨ ops = .framebuffer)
    (heq : vfsMknod s.st (s.tasks t).cwd (some path.text) (some ops) = some (st', x)) :
    ∃ T', Sys.Next s ⟨st', s.tasks⟩ T T' := by
  rw [vfsMknod] at heq
  obtain ⟨⟨st₁, ret, dev⟩, hopen, heq⟩ := Option.bind_eq_some_iff.1 heq
  obtain ⟨T', hg, ⟨hr, rfl⟩ | ⟨rfl, v, hv, hnew⟩⟩ := vfsOpen_some h.tree (h.cwd t) path.nul hopen
  · simp only [if_pos hr.ne] at heq
    obtain ⟨rfl, -⟩ := Prod.mk.inj (Option.some.inj heq)
    exact ⟨T', h.next hg⟩
  · simp only [if_neg (not_not.2 (rfl : (0 : ℤ) = 0)), hnew.file] at heq
    have hops : ops ≠ .tmpfs := by rcases hdev with rfl | rfl <;> decide
    have htree := hg.tree.setFOps hv hops
    have hvnode := State.vnodes_setFOps st₁ v ops
    have hkept : MountsKept s.st (st₁.setVnode v fun e => { e with fOps := some ops }) T T' := by
      refine ⟨fun w hw => ?_, fun w hw hm => ?_, fun w hw htype => ?_, hg.mounts.registered,
        fun hr => (hg.mounts.hierarchy hr).setFOps hg.tree v ops⟩
      · rw [hvnode]
        exact hg.mounts.parent w hw
      · rw [hvnode]
        exact hg.mounts.mount w hw hm
      · rw [State.internal, hvnode]
        exact hg.mounts.directory w hw htype
    have hg₂ : Grows s.st (st₁.setVnode v fun e => { e with fOps := some ops }) T T' :=
      ⟨htree, hg.subset, hg.root, fun w hw => (congrArg Vnode.vOps (hvnode w)).trans (hg.vOps w hw),
        hg.handle, hkept⟩
    have hno : ∀ u j, (s.tasks u).fdTable j ≠ 0 → (s.tasks u).fdTable j ≠ dev := fun u j hne =>
      hnew.fresh _ (h.handle u j hne).live
    have hclosed := (h.grows hg₂).closed hno (Or.inr hnew.live)
    have hmounts := hkept.trans (htree.vfsClose_mounts dev) hg.subset
    rw [congrArg Prod.fst (Option.some.inj heq)] at hclosed hmounts
    exact ⟨T', hclosed, hg.subset, hmounts⟩

theorem Sys.Inv.fill (h : s.Inv T) {path : UserPath} {entries : List Entry}
    (hfits : ∀ e ∈ entries, e.Fits)
    (heq : initramfsInit (lookupPath s.st (s.tasks t).cwd path.text).1
      (lookupPath s.st (s.tasks t).cwd path.text).2.2 entries = some st') :
    ∃ T', Sys.Next s ⟨st', s.tasks⟩ T T' := by
  have hg := Grows.extend h.tree (lookupPath_extends h.tree.heap path.nul (s.tasks t).cwd).1
  rcases (h.tree.lookupPath_mem (h.cwd t) path.nul).2 with h0 | hv
  · rw [h0, initramfsInit, if_pos rfl] at heq
    cases heq
  · obtain ⟨T', hg'⟩ := initramfsInit_grows hg.tree hv (fun e he => (hfits e he).2) heq
    exact ⟨T', h.next (hg.trans hg')⟩

theorem Sys.next_step (h : s.Inv T) (hstep : Sys.Step s s') : ∃ T', Sys.Next s s' T T' := by
  obtain ⟨op, x, hvalid, heq⟩ := hstep
  cases op with
  | «open» t path flags =>
      obtain ⟨⟨st', task', x'⟩, hopen, heq⟩ := Option.bind_eq_some_iff.1 heq
      obtain ⟨rfl, -⟩ := Prod.mk.inj (Option.some.inj heq)
      exact h.open hopen
  | close t fd =>
      obtain ⟨rfl, -⟩ := Prod.mk.inj (Option.some.inj heq)
      exact ⟨T, h.close t fd⟩
  | write t fd buf =>
      obtain ⟨⟨st', x'⟩, hwrite, heq⟩ := Option.bind_eq_some_iff.1 heq
      obtain ⟨rfl, -⟩ := Prod.mk.inj (Option.some.inj heq)
      exact ⟨T, h.write hwrite⟩
  | read t fd buf count port =>
      obtain ⟨⟨st', x', bytes⟩, hread, heq⟩ := Option.bind_eq_some_iff.1 heq
      obtain ⟨rfl, -⟩ := Prod.mk.inj (Option.some.inj heq)
      exact ⟨T, h.read hread⟩
  | lseek t fd offset whence =>
      obtain ⟨rfl, -⟩ := Prod.mk.inj (Option.some.inj heq)
      exact ⟨T, h.lseek t fd offset whence⟩
  | mkdir t path =>
      obtain ⟨rfl, -⟩ := Prod.mk.inj (Option.some.inj heq)
      exact h.mkdir t path
  | mount t target filesystem =>
      obtain ⟨rfl, -⟩ := Prod.mk.inj (Option.some.inj heq)
      exact h.mount t hvalid
  | chdir t path =>
      obtain ⟨rfl, -⟩ := Prod.mk.inj (Option.some.inj heq)
      exact ⟨T, h.chdir t path⟩
  | start t =>
      obtain ⟨⟨st', task⟩, hstart, heq⟩ := Option.bind_eq_some_iff.1 heq
      obtain ⟨T', h'⟩ := h.start (t := t) hstart
      cases task with
      | none =>
          obtain ⟨rfl, -⟩ := Prod.mk.inj (Option.some.inj heq)
          exact ⟨T', h'⟩
      | some task =>
          obtain ⟨rfl, -⟩ := Prod.mk.inj (Option.some.inj heq)
          exact ⟨T', h'⟩
  | fork t held => exact ⟨T, h.fork hvalid heq⟩
  | reap t th =>
      obtain ⟨rfl, -⟩ := Prod.mk.inj (Option.some.inj heq)
      exact ⟨T, h.reap t hvalid⟩
  | register name ops =>
      obtain ⟨st', hreg, heq⟩ := Option.bind_eq_some_iff.1 heq
      obtain ⟨rfl, -⟩ := Prod.mk.inj (Option.some.inj heq)
      exact ⟨T, h.next (registerBackend_grows h.tree hreg)⟩
  | mknod t path ops =>
      obtain ⟨⟨st', ret⟩, hmknod, heq⟩ := Option.bind_eq_some_iff.1 heq
      obtain ⟨rfl, -⟩ := Prod.mk.inj (Option.some.inj heq)
      exact h.mknod hvalid hmknod
  | fill t path entries =>
      obtain ⟨st', hfill, heq⟩ := Option.bind_eq_some_iff.1 heq
      obtain ⟨rfl, -⟩ := Prod.mk.inj (Option.some.inj heq)
      exact h.fill hvalid.1 hfill

/-- The first registration. -/
theorem Boot.register {st st₁ : State} (hb : Boot st)
    (heq : registerBackend st tmpfsName .tmpfs = some st₁) :
    ∃ f, st₁.heap.Ok ∧ (f, sizeofFilesystem) ∈ st₁.heap.live ∧ st₁.filesystems = [f] ∧
      st₁.fsTable f = ⟨tmpfsName, some .tmpfs⟩ := by
  rw [registerBackend] at heq
  rcases State.alloc_cases hb.heap (n := sizeofFilesystem) (by decide) with
    ⟨st₂, heq₂, -⟩ | ⟨st₂, f, heq₂, hf, -, hext, -⟩
  · simp only [heq₂, if_true] at heq
    cases heq
  have hnone : st₂.filesystems = [] := hext.filesystems.trans hb.filesystems
  have hdup : ¬ ∃ g ∈ ([] : List ℕ), (Function.update st₂.fsTable f ⟨tmpfsName, some .tmpfs⟩ g).name =
      (Function.update st₂.fsTable f ⟨tmpfsName, some .tmpfs⟩ f).name := by
    rintro ⟨g, hg, -⟩
    cases hg
  have hroom : ([] : List ℕ).length < maxFilesystems := by decide
  simp only [heq₂, if_neg hf, registerFilesystem, hnone, if_pos hroom, if_neg hdup] at heq
  have hst := Option.some.inj heq
  subst hst
  refine ⟨f, hext.ok, ?_, rfl, ?_⟩
  · change (f, sizeofFilesystem) ∈ st₂.heap.live
    rw [hext.live]
    exact List.mem_cons_self ..
  · change Function.update st₂.fsTable f _ f = _
    rw [Function.update_self]

def TmpfsFirst (st : State) : Prop :=
  ∃ f rest, st.filesystems = f :: rest ∧ st.fsTable f = ⟨tmpfsName, some .tmpfs⟩

/-- The root file system is a tree with one vnode. -/
theorem mountRoot_tree {st : State} (hb : Boot st) (heq : mountRoot st = some st') :
    ∃ r, Tree st' {r} ∧ Hierarchy st' {r} ∧ TmpfsFirst st' ∧ (st'.vnodes r).mount = 0 ∧
      (∀ b ∈ st.heap.live, b ∈ st'.heap.live) ∧ st'.mem = st.mem ∧ (st'.internal r).type = .directory := by
  rw [mountRoot] at heq
  obtain ⟨st₁, hreg, heq⟩ := Option.bind_eq_some_iff.1 heq
  obtain ⟨f, hok, hflive, hfs, hops⟩ := hb.register hreg
  obtain ⟨-, hkeep, hmem⟩ := registerBackend_keeps hb.heap hreg
  rcases State.alloc_cases hok (n := sizeofMount) (by decide) with
    ⟨st₂, heq₂, -⟩ | ⟨st₂, m, heq₂, hm, hmfresh, hext, -⟩
  · simp only [heq₂, if_true] at heq
    cases heq
  have hext₂ : Extends { st₁ with rootfs := m } { st₂ with rootfs := m } [(m, sizeofMount)] :=
    { hext with rootfs := rfl }
  have hfs₂ : st₂.filesystems.head? = some f := by rw [hext.filesystems, hfs]; rfl
  have hops₂ : (st₂.fsTable f).setupMount = some .tmpfs := by
    rw [show st₂.fsTable f = _ from hext.fs _ hflive, hops]
  have hf0 : f ≠ 0 := (hok.start_pos _ hflive).ne'
  simp only [heq₂, if_neg hm, hfs₂, hops₂, Option.bind_eq_bind, Option.bind_some] at heq
  rcases tmpfsSetupMount_cases hext₂ hmfresh hf0 hm with
    ⟨st₃, heq₃, -⟩ | ⟨st₃, r, n, heq₃, hset⟩
  · rw [VnodeOps.setupMount] at heq
    simp only [heq₃, if_pos (by decide : enomem ≠ 0)] at heq
    cases heq
  rw [VnodeOps.setupMount] at heq
  simp only [heq₃, if_neg (not_not.2 (rfl : (0 : ℤ) = 0)), hset.mount] at heq
  have hst := Option.some.inj heq
  subst hst
  have hlive : ∀ b ∈ (r, sizeofVnode) :: (n, sizeofNode) :: [(m, sizeofMount)], b ∈ st₃.heap.live := by
    intro b hb
    rw [hset.extend.live]
    exact List.mem_append_left _ hb
  obtain ⟨hmount, hvops, hfops, hint, hparent⟩ := hset.vnode
  have hself : (st₃.setVnode r fun e => { e with parent := 0 }).vnodes r =
      { st₃.vnodes r with parent := 0 } := State.vnodes_setVnode_self ..
  have hroot : (st₃.setVnode r fun e => { e with parent := 0 }).root = r := by
    change (st₃.mounts st₃.rootfs).root = r
    rw [show st₃.rootfs = m from hset.extend.rootfs, hset.mount]
  have hnode : (st₃.setVnode r fun e => { e with parent := 0 }).internal r = st₃.nodes n := by
    rw [State.internal, hself]
    exact congrArg st₃.nodes hint
  have hdir : ¬ IsDataFile (st₃.setVnode r fun e => { e with parent := 0 }) r := by
    rintro ⟨-, htype⟩
    rw [hnode, hset.directory rfl] at htype
    cases htype
  refine ⟨r, ⟨hset.extend.ok, ?_, hroot, ?_, ?_, ?_, ?_, ?_, ?_, ?_, ?_, ?_, ?_, ?_, ?_⟩, ?_, ?_, ?_,
    fun b hb => hset.extend.mem_live (hkeep b hb), hset.extend.mem.trans hmem,
    by rw [hnode, hset.directory rfl]⟩
  · change (st₃.rootfs, sizeofMount) ∈ st₃.heap.live
    rw [show st₃.rootfs = m from hset.extend.rootfs]
    exact hlive (m, sizeofMount) (by simp)
  · rw [hroot, hself]
    exact ⟨hmount, hparent⟩
  · rintro v rfl
    exact hlive (v, sizeofVnode) (List.mem_cons_self ..)
  · rintro v rfl
    rw [hself]
    change ((st₃.vnodes v).internal, sizeofNode) ∈ st₃.heap.live
    rw [hint]
    exact hlive (n, sizeofNode) (by simp)
  · rintro v rfl w rfl -
    rfl
  · rintro v rfl
    rw [hself]
    exact fun hnone => by simp [hvops] at hnone
  · rintro v rfl
    rw [hself]
    exact ⟨fun hnone => by simp [hfops] at hnone, fun _ => hvops⟩
  · rintro v rfl hne
    exact absurd hroot.symm hne
  · rintro v rfl i hi
    rw [hnode, hset.empty] at hi
    omega
  · rintro v rfl hne
    rw [hself] at hne
    exact absurd hmount hne
  · rintro v rfl hf
    exact absurd hf hdir
  · rintro v rfl w rfl hf
    exact absurd hf hdir
  · intro g hg
    change g ∈ st₃.filesystems at hg
    rw [hset.extend.filesystems] at hg
    change g ∈ st₁.filesystems at hg
    rw [hfs, List.mem_singleton] at hg
    subst hg
    refine ⟨hset.extend.mem_live hflive, ?_⟩
    rw [show (st₃.setVnode r fun e => { e with parent := 0 }).fsTable g = st₁.fsTable g from
      hset.extend.fs _ hflive, hops]
    exact Option.some_ne_none _
  · refine ⟨?_, ?_, ?_, ?_, fun _ => 0, ?_⟩
    · rintro v rfl hne
      rw [hself] at hne
      exact absurd hmount hne
    · rintro v rfl hne
      rw [hself] at hne
      exact absurd hmount hne
    · rintro v rfl hne
      rw [hself] at hne
      exact absurd hmount hne
    · rintro v rfl i hi
      rw [hnode, hset.empty] at hi
      omega
    · rintro v rfl hne
      exact absurd hroot.symm hne
  · refine ⟨f, [], ?_, (hset.extend.fs _ hflive).trans hops⟩
    exact hset.extend.filesystems.trans hfs
  · rw [hself]
    exact hmount

structure Sys.Whole (s : Sys) (T : Set ℕ) : Prop where
  inv : s.Inv T
  hierarchy : Hierarchy s.st T
  tmpfs : TmpfsFirst s.st

theorem Sys.Whole.next (h : s.Whole T) (hn : Sys.Next s s' T T') : s'.Whole T' := by
  refine ⟨hn.inv, hn.mounts.hierarchy h.hierarchy, ?_⟩
  obtain ⟨f, rest, hfs, htable⟩ := h.tmpfs
  obtain ⟨hpre, hsame⟩ := hn.mounts.registered
  rw [hfs] at hpre hsame
  obtain ⟨rest', hrest⟩ := hpre
  exact ⟨f, rest ++ rest', hrest.symm, (hsame f (List.mem_cons_self ..)).trans htable⟩

theorem Sys.Initial.whole (h : s.Initial) : ∃ T, s.Whole T := by
  obtain ⟨st, hb, heq, htasks⟩ := h
  obtain ⟨r, htree, hhier, htmpfs, -⟩ := mountRoot_tree hb heq
  refine ⟨{r}, ⟨htree, fun t => Or.inl ?_, fun t i hne => absurd ?_ hne, fun t i u j hne => absurd ?_ hne⟩,
    hhier, htmpfs⟩
  all_goals
    rw [htasks]
    rfl

theorem Sys.Inv.run (h : s.Inv T) (hrun : ReflTransGen Sys.Step s s') : ∃ T', Sys.Next s s' T T' := by
  induction hrun with
  | refl => exact ⟨T, h.same⟩
  | tail _ hstep ih =>
      obtain ⟨T₁, h₁⟩ := ih
      obtain ⟨T₂, h₂⟩ := Sys.next_step h₁.inv hstep
      exact ⟨T₂, h₁.trans h₂⟩

/-- Every reachable state is well formed. -/
theorem Sys.Reachable.whole (h : s.Reachable) : ∃ T, s.Whole T := by
  obtain ⟨s₀, hinit, hrun⟩ := h
  obtain ⟨T, hwhole⟩ := hinit.whole
  obtain ⟨T', hnext⟩ := hwhole.inv.run hrun
  exact ⟨T', hwhole.next hnext⟩

theorem Sys.Reachable.inv (h : s.Reachable) : ∃ T, s.Inv T := h.whole.imp fun _ hw => hw.inv

theorem Sys.Reachable.step (h : s.Reachable) {op : SysOp} (hvalid : s.Valid op)
    (heq : s.step op = some (s', x)) : s'.Reachable := by
  obtain ⟨s₀, hinit, hrun⟩ := h
  exact ⟨s₀, hinit, hrun.tail ⟨op, x, hvalid, heq⟩⟩

def State.blank : State where
  heap := ⟨[], fun n => 4096 * (n + 1), 0⟩
  mem := fun _ => 0
  vnodes := fun _ => ⟨0, none, none, 0, 0, false⟩
  nodes := fun _ => ⟨[], .file, 0, 0, 0, 0, fun _ => 0, 0⟩
  mounts := fun _ => ⟨0, 0⟩
  files := fun _ => ⟨0, 0, none, 0⟩
  fsTable := fun _ => ⟨[], none⟩
  filesystems := []
  rootfs := 0

theorem State.blank_mounts : (mountRoot State.blank).isSome := by decide

def Sys.blank : Sys := ⟨(mountRoot State.blank).get State.blank_mounts, fun _ => Task.idle⟩

theorem Sys.blank_reachable : Sys.blank.Reachable :=
  ⟨Sys.blank, ⟨State.blank, ⟨⟨List.Pairwise.nil, nofun, nofun⟩, rfl⟩,
    (Option.some_get State.blank_mounts).symm, fun _ => rfl⟩, ReflTransGen.refl⟩

def Sys.after (s : Sys) (op : SysOp) (h : (s.step op).isSome) : Sys := ((s.step op).get h).1

theorem Sys.Reachable.after (h : s.Reachable) (op : SysOp) (hvalid : s.Valid op)
    (hsome : (s.step op).isSome) : (s.after op hsome).Reachable :=
  h.step hvalid (x := ((s.step op).get hsome).2) (Option.some_get _).symm

def SysOp.mkdirA : SysOp := .mkdir 0 ⟨1, [47, 97], by decide⟩

theorem Sys.blank_mkdirA : (Sys.blank.step .mkdirA).isSome := by decide

def Sys.withDir : Sys := Sys.blank.after .mkdirA Sys.blank_mkdirA

theorem Sys.withDir_reachable : Sys.withDir.Reachable :=
  Sys.blank_reachable.after .mkdirA trivial Sys.blank_mkdirA

def SysOp.chdirRoot : SysOp := .chdir 0 ⟨1, [47], by decide⟩

theorem Sys.withDir_chdirRoot : (Sys.withDir.step .chdirRoot).isSome := by decide

def Sys.inRoot : Sys := Sys.withDir.after .chdirRoot Sys.withDir_chdirRoot

theorem Sys.inRoot_reachable : Sys.inRoot.Reachable :=
  Sys.withDir_reachable.after .chdirRoot trivial Sys.withDir_chdirRoot

def SysOp.chdirA : SysOp := .chdir 0 ⟨1, [47, 97], by decide⟩

theorem Sys.withDir_chdirA : (Sys.withDir.step .chdirA).isSome := by decide

def Sys.inDir : Sys := Sys.withDir.after .chdirA Sys.withDir_chdirA

def SysOp.mountA : SysOp := .mount 0 ⟨1, [47, 97], by decide⟩ ⟨1, tmpfsName, by decide⟩

theorem Sys.inDir_mountA : (Sys.inDir.step .mountA).isSome := by decide

/-- The system with a task in a directory `/a` on which a file system has been mounted. -/
def Sys.covered : Sys := Sys.inDir.after .mountA Sys.inDir_mountA

theorem Sys.inDir_ready : RootClear Sys.inDir.st [47, 97] tmpfsName := by
  intro f hf hops
  have hfind : (findFilesystem Sys.inDir.st tmpfsName).all fun f =>
      (Sys.inDir.st.fsTable f).setupMount = some .tmpfs := by decide
  rw [Option.mem_def.1 hf] at hfind
  have htmpfs : (Sys.inDir.st.fsTable f).setupMount = some .tmpfs := by simpa using hfind
  rw [hops] at htmpfs
  cases htmpfs

theorem Sys.inDir_reachable : Sys.inDir.Reachable :=
  Sys.withDir_reachable.after .chdirA trivial Sys.withDir_chdirA

theorem Sys.covered_reachable : Sys.covered.Reachable :=
  Sys.inDir_reachable.after .mountA Sys.inDir_ready Sys.inDir_mountA

def Sys.Call (s s' : Sys) : Prop := ∃ op x, s.step op = some (s', x)

def Sys.Called (s : Sys) : Prop := ∃ s₀, Sys.Initial s₀ ∧ ReflTransGen Sys.Call s₀ s

theorem Sys.Called.after (h : s.Called) (op : SysOp) (hsome : (s.step op).isSome) :
    (s.after op hsome).Called := by
  obtain ⟨s₀, hinit, hrun⟩ := h
  exact ⟨s₀, hinit, hrun.tail ⟨op, _, (Option.some_get hsome).symm⟩⟩

def SysOp.registerInitramfs : SysOp := .register initramfsName .initramfs

def SysOp.mountInitramfsA : SysOp := .mount 0 ⟨1, [47, 97], by decide⟩ ⟨1, initramfsName, by decide⟩

/-- Every free block holds what a directory with the children `x` and `y` may have left. Nothing is mounted
on `x`, and a mount whose structure is zero on `y`. -/
def State.leftovers : State :=
  { State.blank with
    vnodes := fun v => ⟨if v = 0x3000000 then 0 else 0x3003000, some .initramfs, some .initramfs,
      if v = 0x3000000 then 0x3001000 else 0x3002000, 0, false⟩
    nodes := fun n => ⟨[if n = 0x3001000 then 120 else 121], .directory, 0, 0, 0, 0,
      fun i => if i = 0 then 0x3000000 else 0x3000200, 2⟩ }

theorem State.leftovers_mounts : (mountRoot State.leftovers).isSome := by decide

def Sys.leftovers : Sys := ⟨(mountRoot State.leftovers).get State.leftovers_mounts, fun _ => Task.idle⟩

theorem Sys.leftovers_called : Sys.leftovers.Called :=
  ⟨Sys.leftovers, ⟨State.leftovers, ⟨⟨List.Pairwise.nil, nofun, nofun⟩, rfl⟩,
    (Option.some_get State.leftovers_mounts).symm, fun _ => rfl⟩, ReflTransGen.refl⟩

theorem Sys.leftovers_mkdirA : (Sys.leftovers.step .mkdirA).isSome := by decide

theorem Sys.leftovers_registers :
    ((Sys.leftovers.after .mkdirA Sys.leftovers_mkdirA).step .registerInitramfs).isSome := by decide

/-- The system with a directory `/a` and both file systems, in that memory. -/
def Sys.beforeStale : Sys :=
  (Sys.leftovers.after .mkdirA Sys.leftovers_mkdirA).after .registerInitramfs Sys.leftovers_registers

theorem Sys.beforeStale_mountA : (Sys.beforeStale.step .mountInitramfsA).isSome := by decide

/-- An initramfs is mounted on `/a`, and its root is what the block held. -/
def Sys.stale : Sys := Sys.beforeStale.after .mountInitramfsA Sys.beforeStale_mountA

theorem Sys.stale_called : Sys.stale.Called :=
  ((Sys.leftovers_called.after .mkdirA Sys.leftovers_mkdirA).after .registerInitramfs
    Sys.leftovers_registers).after .mountInitramfsA Sys.beforeStale_mountA

end OscKernel.Vfs
