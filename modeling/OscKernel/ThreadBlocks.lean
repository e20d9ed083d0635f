import OscKernel.HandleBlocks

/-!
# The blocks of threads

Threads start in three ways, make calls, and are reaped after their end. `kill_zombies` frees the control
block and the two stacks. So the heap is as it was, but for what the thread has made in the memory file
system, when the thread has taken no other block: it was forked, or `thread_create` had no memory for more,
and none of its calls got a handle or mounted a file system.
-/

namespace OscKernel.Vfs

open Relation

variable {st st₁ st₂ st' : State} {T T₀ T' : Set ℕ} {s s' : Sys} {t v w p cwd dir target file : ℕ}
  {path name : List UInt8} {flags : BitVec 32} {ops : FileOps} {r : ℤ} {own base : List (ℕ × ℕ)}
  {b : ℕ × ℕ} {type : NodeType} {i : Fin threadMaxFd} {task task' : Task}

def createThread (st : State) : Option (State × Option Thread) :=
  let (st, task) := st.alloc sizeofThreadTask
  if task = 0 then some (st, none)
  else
    let (st, kernelStack) := st.alloc threadStackSize
    if kernelStack = 0 then some (st.free task, none)
    else
      let (st, userStack) := st.alloc threadStackSize
      if userStack = 0 then some ((st.free kernelStack).free task, none)
      else do
        let (st, sigFrame) := st.alloc sizeofTrapFrame
        let (st, files) ← openStdFiles st { cwd := st.root, fdTable := fun _ => 0 }
        some (st, some { task, kernelStack, userStack, sigFrame, files })

/-- `_exec` of a file with the given bytes. It has no result when `thread_create` fails, whose `-1` it would
use as a pointer. -/
def exec (st : State) (bytes : List UInt8) : Option (State × Option Thread) :=
  if bytes.length = 0 then some (st, none)
  else
    let (st, execAddr) := st.alloc bytes.length
    if execAddr = 0 then some (st, none)
    else do
      let (st, thread) ← createThread { st with mem := ByteMem.write st.mem execAddr bytes }
      let thread ← thread
      some (st, some thread)

/-- `thread_create` prepares the files of the thread as before. -/
theorem createThread_files (st : State) :
    (createThread st).map (fun r => (r.1, r.2.map Thread.files)) = threadCreate st := by
  rw [createThread, threadCreate]
  dsimp only
  split_ifs
  · rfl
  · rfl
  · rfl
  · cases openStdFiles _ _ <;> rfl

inductive Start where
  | create
  | fork (held : ℕ × Task)
  | exec (bytes : List UInt8)

def Start.run (st : State) : Start → Option (State × Option Thread)
  | .create => createThread st
  | .fork held => some (sysFork st held)
  | .exec bytes => Vfs.exec st bytes

def SysOp.caller : SysOp → Option ℕ
  | .open t _ _ | .close t _ | .write t _ _ | .read t _ _ _ _ | .lseek t _ _ _ | .mkdir t _ | .mount t _ _
  | .chdir t _ => some t
  | .start _ | .fork _ _ | .reap _ _ | .register _ _ | .mknod _ _ _ | .fill _ _ _ => none

/-- The blocks of a vnode of the memory file system: its vnode, its node and its data. -/
def TmpfsBlock (st : State) (v : ℕ) (b : ℕ × ℕ) : Prop :=
  (st.vnodes v).vOps = some .tmpfs ∧
    (b = (v, sizeofVnode) ∨ b = ((st.vnodes v).internal, sizeofNode) ∨
      (st.internal v).type = .file ∧ b = ((st.internal v).data, (st.internal v).capacity))

/-- The blocks in use are those from before, and those of new vnodes of the memory file system. -/
def Conserves (st st' : State) : Prop :=
  ∃ T T', Tree st T ∧ Tree st' T' ∧ T ⊆ T' ∧
    ∀ b, b ∈ st'.heap.live ↔ b ∈ st.heap.live ∨ ∃ v ∈ T', v ∉ T ∧ TmpfsBlock st' v b

/-- There is no memory for a handle, for that of `vfs_open` nor for that of a device. -/
def NoHandle (st : State) : Prop :=
  (st.alloc sizeofFile).2 = 0 ∧ ((st.alloc sizeofFile).1.alloc sizeofFile).2 = 0

theorem NoHandle.congr (h : NoHandle st) (hheap : st'.heap = st.heap) : NoHandle st' := by
  simp only [NoHandle, State.alloc, hheap] at h ⊢
  exact h

structure SparesOpen (st : State) (cwd : ℕ) (path : List UInt8) (flags : BitVec 32) : Prop where
  found : ∀ v, LookupFinds st cwd path v → NoHandle (afterFind st cwd path)
  made : oCreat flags → CanMake st cwd path → NoHandle (afterCreate st cwd path)
  stale : oCreat flags → ∀ dir ops, Refused st cwd path dir ops → staleVnode st cwd path ops ≠ 0 →
    NoHandle (afterRefusal st cwd path)

theorem vfsOpenVnode_noHandle (hok : st.heap.Ok) (hv : v ≠ 0) (hops : (st.vnodes v).fOps = some ops)
    (hno : NoHandle st) (flags : BitVec 32) :
    ∃ st' r, vfsOpenVnode st flags v = some (st', r, 0) ∧ r < 0 ∧ Extends st st' [] := by
  obtain ⟨h₁, h₂⟩ := hno
  rcases alloc_file hok with ⟨st₁, heq, hopens⟩ | ⟨st₁, p, heq, hp, -⟩
  swap
  · rw [heq] at h₁
    exact absurd h₁ hp
  have hops₁ : (st₁.vnodes v).fOps = some ops := by rw [hopens.same.vnodes, hops]
  rw [heq] at h₂
  by_cases hdev : ops.device
  · rcases alloc_file hopens.extend.ok with ⟨st₂, heq₂, hopens₂⟩ | ⟨st₂, p, heq₂, hp, -⟩
    swap
    · rw [heq₂] at h₂
      exact absurd h₂ hp
    refine ⟨st₂.free 0, enomem, ?_, by decide, (hopens.trans hopens₂).extend.free_null⟩
    simp only [vfsOpenVnode, heq, if_neg hv, hops₁, FileOps.open_device hdev, devOpen, heq₂, if_true]
    rfl
  · refine ⟨st₁.free 0, einval, ?_, by decide, hopens.extend.free_null⟩
    have hnull : tmpfsOpen st₁ v 0 = (st₁, einval) := if_pos (Or.inr rfl)
    simp only [vfsOpenVnode, heq, if_neg hv, hops₁, FileOps.open_file hdev, hnull]
    rfl

def Spared (st st' : State) (T : Set ℕ) : Prop :=
  Extends st st' [] ∨ ∃ st₁ dir v name type, dir ∈ T ∧ CanCreate st dir name ∧
    Created st st₁ dir v name type ∧ Extends st₁ st' []

theorem vfsOpenVnode_spared (h : Tree st T) (hv : v ∈ T) (hno : NoHandle st)
    (heq : vfsOpenVnode st flags v = some (st', r, file)) : r < 0 ∧ file = 0 ∧ Extends st st' [] := by
  obtain ⟨ops, hops⟩ := Option.ne_none_iff_exists'.1 (h.fOps v hv).1
  obtain ⟨st₁, r₁, heq₁, hr, hext⟩ := vfsOpenVnode_noHandle h.heap (h.ne_zero hv) hops hno flags
  rw [heq₁] at heq
  obtain ⟨rfl, rfl, rfl⟩ : st₁ = st' ∧ r₁ = r ∧ 0 = file := by simpa using heq
  exact ⟨hr, rfl, hext⟩

theorem SparesOpen.spared (hs : SparesOpen st cwd path flags) (h : Tree st T) (hcwd : cwd = 0 ∨ cwd ∈ T)
    (hnul : (0 : UInt8) ∉ path) (heq : vfsOpen st cwd (some path) flags target = some (st', r, file)) :
    r < 0 ∧ file = 0 ∧ Spared st st' T := by
  obtain ⟨hext, -⟩ := afterFind_extends h hnul cwd
  rcases found_or_missing st cwd path with ⟨v, hfind⟩ | hmissing
  · rw [vfsOpen_found hfind] at heq
    have hv := h.resolvePath_mem hcwd ((lookupFinds_iff hnul).1 hfind).2
    obtain ⟨hr, hfile, hext'⟩ := vfsOpenVnode_spared (h.extend hext) hv (hs.found v hfind) heq
    exact ⟨hr, hfile, Or.inl (hext.trans hext')⟩
  have hfail : ∀ {st₁ : State} {y : ℤ}, y < 0 → Extends st st₁ [] →
      (some (st₁, y, 0) : Option (State × ℤ × ℕ)) = some (st', r, file) →
      r < 0 ∧ file = 0 ∧ Spared st st' T := by
    intro st₁ y hy hext₁ heq₁
    obtain ⟨rfl, rfl, rfl⟩ : st₁ = st' ∧ y = r ∧ 0 = file := by simpa using heq₁
    exact ⟨hy, rfl, Or.inl hext₁⟩
  by_cases hcreat : oCreat flags
  swap
  · rw [vfsOpen_missing hmissing hcreat] at heq
    exact hfail (lt_of_le_of_ne (lookupPath_code hnul st cwd) hmissing) hext heq
  by_cases hasks : ∃ dir ops, Asks st cwd path dir ops
  swap
  · obtain ⟨st₁, y, heq₁, hy, hext₁, -⟩ :=
      vfsOpen_unasked h hnul hmissing (fun dir ops ha => hasks ⟨dir, ops, ha⟩) hcreat target
    rw [heq₁] at heq
    exact hfail hy hext₁ heq
  obtain ⟨dir, ops, hasks⟩ := hasks
  by_cases hacc : Accepts (whenAsked st cwd path) dir (newName path)
  · obtain ⟨st₁, v, hopen, hdir, hcan, hc, hheap⟩ := hasks.accepted h hcwd hnul hacc hcreat target
    rw [hopen] at heq
    have hno := (hs.made hcreat ⟨dir, ops, hasks, hacc⟩).congr hheap
    obtain ⟨hr, hfile, hext'⟩ := vfsOpenVnode_spared (h.created hdir hc) (Set.mem_insert ..) hno heq
    exact ⟨hr, hfile, Or.inr ⟨st₁, dir, v, _, _, hdir, hcan, hc, hext'⟩⟩
  · have hrefused : Refused st cwd path dir ops := ⟨hasks, hacc⟩
    rw [hrefused.runs h hcwd hnul hcreat] at heq
    by_cases hstale : staleVnode st cwd path ops = 0
    · rw [if_pos hstale] at heq
      cases heq
    rw [if_neg hstale] at heq
    have hkeeps := (hrefused.keeps h hnul).1
    obtain ⟨hr, hfile, hext'⟩ := vfsOpenVnode_spared (h.extend hkeeps)
      (Refused.stale_mem h hcwd hnul hstale) (hs.stale hcreat dir ops hrefused hstale) heq
    exact ⟨hr, hfile, Or.inl (hkeeps.trans hext')⟩

theorem TmpfsBlock.congr (hvnode : st'.vnodes v = st.vnodes v)
    (hfile : (st'.internal v).type = (st.internal v).type)
    (hdata : (st'.internal v).type = .file → st'.internal v = st.internal v) :
    TmpfsBlock st' v b ↔ TmpfsBlock st v b := by
  rw [TmpfsBlock, TmpfsBlock, hvnode]
  by_cases htype : (st.internal v).type = .file
  · rw [hdata (hfile.trans htype)]
  · simp only [hfile, htype, false_and]

/-- The node and the blocks that a creation adds. -/
theorem Created.blocks (hc : Created st st' dir v name type) (h : Tree st T) (hd : dir ∈ T) :
    ∃ n data, (st'.vnodes v).vOps = some .tmpfs ∧ (st'.vnodes v).internal = n ∧
      st'.internal v = createdNode name type (st.vnodes dir).internal data ∧
      st'.heap.live = (v, sizeofVnode) :: nodeBlocks type n data ++ st.heap.live ∧
      ∀ b ∈ nodeBlocks type n data, Extends.Fresh st b.1 := by
  obtain ⟨-, st₁, n, data, -, rfl, hext, hvnode, hnode⟩ := hc
  have hblock : (n, sizeofNode) ∈ nodeBlocks type n data := by
    rw [nodeBlocks]
    split_ifs <;> simp
  have hne : n ≠ (st.vnodes dir).internal := fun heq =>
    hext.fresh (List.mem_cons_of_mem _ hblock) _ (h.node dir hd) heq.symm
  have hvn : (st₁.setNode (st.vnodes dir).internal (·.append v)).vnodes v = st₁.vnodes v := rfl
  refine ⟨n, data, ?_, ?_, ?_, hext.live, fun b hb => hext.fresh (List.mem_cons_of_mem _ hb)⟩
  · rw [hvn, hvnode]
  · rw [hvn, hvnode]
  · rw [State.internal_setNode_of_ne]
    · rw [State.internal, hvnode]
      exact hnode
    · rw [hvnode]
      exact hne

theorem Created.block (hc : Created st st' dir v name type) (h : Tree st T) (hd : dir ∈ T) (b : ℕ × ℕ) :
    b ∈ st'.heap.live ↔ b ∈ st.heap.live ∨ TmpfsBlock st' v b := by
  obtain ⟨n, data, hops, hn, hint, hlive, -⟩ := hc.blocks h hd
  rw [TmpfsBlock, hint, hn, hlive, List.mem_append, List.mem_cons, or_comm]
  refine or_congr_right ?_
  rw [and_iff_right hops]
  cases type with
  | file =>
      simp only [nodeBlocks, createdNode, newNode, if_true, List.mem_cons, List.not_mem_nil, or_false,
        true_and]
      exact or_congr_right or_comm
  | directory => simp [nodeBlocks, createdNode, newNode]

theorem Created.data_fresh (hc : Created st st' dir v name type) (h : Tree st T) (hd : dir ∈ T)
    (hfile : IsDataFile st' v) : Extends.Fresh st (st'.internal v).data := by
  obtain ⟨n, data, -, -, hint, -, hfresh⟩ := hc.blocks h hd
  have htype := hfile.2
  rw [hint] at htype ⊢
  cases type with
  | file => exact hfresh (data, defaultFileSize) (by simp [nodeBlocks])
  | directory => cases htype

/-- What is in use while a thread `t` makes calls: the blocks `own` that are freed with it, those from before
and those of the vnodes that are new since. It has no file open. -/
structure Books (s : Sys) (t : ℕ) (own base : List (ℕ × ℕ)) (T₀ T : Set ℕ) : Prop where
  inv : s.Inv T
  subset : T₀ ⊆ T
  closed : ∀ i, (s.tasks t).fdTable i = 0
  live : ∀ b, b ∈ s.st.heap.live ↔ b ∈ own ∨ b ∈ base ∨ ∃ v ∈ T, v ∉ T₀ ∧ TmpfsBlock s.st v b
  apart : ∀ v ∈ T, IsDataFile s.st v → ((s.st.internal v).data, (s.st.internal v).capacity) ∉ own

theorem Books.setTask (h : Books s t own base T₀ T) (hcwd : task.cwd = 0 ∨ task.cwd ∈ T)
    (hclosed : ∀ i, task.fdTable i = 0) : Books (s.setTask t s.st task) t own base T₀ T where
  inv := h.inv.setTask hcwd (fun i hne => absurd (hclosed i) hne) (fun i _ hne => absurd (hclosed i) hne)
    fun i _ _ _ hne => absurd (hclosed i) hne
  subset := h.subset
  closed i := by
    rw [Sys.tasks_setTask]
    exact hclosed i
  live := h.live
  apart := h.apart

theorem Books.extend (h : Books s t own base T₀ T) (he : Extends s.st st' []) :
    Books ⟨st', s.tasks⟩ t own base T₀ T := by
  have hvnode : ∀ v ∈ T, st'.vnodes v = s.st.vnodes v := fun v hv => he.vnode _ (h.inv.tree.vnode v hv)
  have hint : ∀ v ∈ T, st'.internal v = s.st.internal v := fun v hv => h.inv.tree.ownNodes.internal he hv
  refine ⟨h.inv.grows (Grows.extend h.inv.tree he), h.subset, h.closed, fun b => ?_, fun v hv hf => ?_⟩
  · change b ∈ st'.heap.live ↔ _
    rw [he.live, List.nil_append, h.live b]
    refine or_congr_right (or_congr_right (exists_congr fun v => ?_))
    refine and_congr_right fun hv => and_congr_right fun _ => ?_
    refine (TmpfsBlock.congr (hvnode v hv) ?_ fun _ => hint v hv).symm
    rw [hint v hv]
  · rw [IsDataFile, hvnode v hv, hint v hv] at hf
    rw [hint v hv]
    exact h.apart v hv hf

theorem Books.created (h : Books s t own base T₀ T) (hd : dir ∈ T) (hcan : CanCreate s.st dir name)
    (hc : Created s.st st' dir v name type) : Books ⟨st', s.tasks⟩ t own base T₀ (insert v T) := by
  have hf := hc.frame h.inv.tree hd
  have hg := Grows.created h.inv.tree hd hc
  have hold : ∀ w ∈ T, (st'.internal w).type = (s.st.internal w).type ∧
      ((st'.internal w).type = .file → st'.internal w = s.st.internal w) := by
    intro w hw
    by_cases hwd : w = dir
    · rw [hwd, hf.self]
      refine ⟨rfl, fun htype => ?_⟩
      have hdir : (s.st.internal dir).type = .file := htype
      rw [hcan.directory] at hdir
      cases hdir
    · rw [hf.other w hw hwd]
      exact ⟨rfl, fun _ => rfl⟩
  refine ⟨h.inv.grows hg, h.subset.trans hg.subset, h.closed, fun b => ?_, fun w hw hfile => ?_⟩
  · change b ∈ st'.heap.live ↔ _
    rw [hc.block h.inv.tree hd b, h.live b, or_assoc, or_assoc]
    refine or_congr_right (or_congr_right ?_)
    have hcongr : ∀ w ∈ T, TmpfsBlock st' w b ↔ TmpfsBlock s.st w b := fun w hw =>
      TmpfsBlock.congr (hf.vnode w hw) (hold w hw).1 (hold w hw).2
    constructor
    · rintro (⟨w, hw, hnew, hb⟩ | hb)
      · exact ⟨w, hg.subset hw, hnew, (hcongr w hw).2 hb⟩
      · exact ⟨v, Set.mem_insert v T, fun hv => hf.fresh (h.subset hv), hb⟩
    · rintro ⟨w, rfl | hw, hnew, hb⟩
      · exact Or.inr hb
      · exact Or.inl ⟨w, hw, hnew, (hcongr w hw).1 hb⟩
  · rcases hw with rfl | hw
    · intro hown
      exact hc.data_fresh h.inv.tree hd hfile _ ((h.live _).2 (Or.inl hown)) rfl
    · have hsame := (hold w hw).2 hfile.2
      rw [IsDataFile, hf.vnode w hw, hsame] at hfile
      rw [hsame]
      exact h.apart w hw hfile

theorem Books.spared (h : Books s t own base T₀ T) (hs : Spared s.st st' T) :
    ∃ T', Books ⟨st', s.tasks⟩ t own base T₀ T' := by
  rcases hs with hext | ⟨st₁, dir, v, name, type, hdir, hcan, hc, hext⟩
  · exact ⟨T, h.extend hext⟩
  · exact ⟨_, (h.created hdir hcan hc).extend hext⟩

def Sys.Spares (s : Sys) : SysOp → Prop
  | .open t path flags => path.missing ∨ SparesOpen s.st (s.tasks t).cwd path.text flags
  | .mount t target filesystem => (sysMount s.st (s.tasks t) target filesystem).2 ≠ 0
  | _ => True

def Sys.SparingCall (t : ℕ) (s s' : Sys) : Prop :=
  ∃ op x, op.caller = some t ∧ s.Valid op ∧ s.Spares op ∧ s.step op = some (s', x)

theorem Books.same (h : Books s t own base T₀ T) (hs : s' = s) : ∃ T', Books s' t own base T₀ T' :=
  ⟨T, hs ▸ h⟩

theorem Task.setFd_self (task : Task) (hi : task.fdTable i = 0) : task.setFd i 0 = task := by
  rw [Task.setFd, ← hi, Function.update_eq_self]

theorem Books.open (h : Books s t own base T₀ T) {path : UserPath}
    (hs : path.missing ∨ SparesOpen s.st (s.tasks t).cwd path.text flags)
    (heq : sysOpen s.st (s.tasks t) path flags = some (st', task', r)) :
    ∃ T', Books (s.setTask t st' task') t own base T₀ T' := by
  rw [sysOpen] at heq
  split_ifs at heq with hmissing
  · obtain ⟨rfl, rfl, -⟩ := by simpa only [Option.some.injEq, Prod.mk.injEq] using heq
    exact h.same (s.setTask_same t)
  cases hfirst : (s.tasks t).firstEmpty with
  | none =>
      rw [hfirst] at heq
      obtain ⟨rfl, rfl, -⟩ := by simpa only [Option.some.injEq, Prod.mk.injEq] using heq
      exact h.same (s.setTask_same t)
  | some i =>
      rw [hfirst] at heq
      obtain ⟨⟨st₁, ret, file⟩, hopen, heq⟩ := Option.bind_eq_some_iff.1 heq
      obtain ⟨hr, rfl, hspared⟩ :=
        (hs.resolve_left hmissing).spared h.inv.tree (h.inv.cwd t) path.nul hopen
      simp only [if_pos hr.ne] at heq
      obtain ⟨rfl, rfl, -⟩ := by simpa only [Option.some.injEq, Prod.mk.injEq] using heq
      rw [Task.setFd_self _ (h.closed i), Sys.setTask_same]
      exact h.spared hspared

theorem Books.close (h : Books s t own base T₀ T) (fd : ℤ) :
    ∃ T', Books (s.setTask t (sysClose s.st (s.tasks t) fd).1 (sysClose s.st (s.tasks t) fd).2.1) t own base
      T₀ T' := by
  rw [sysClose]
  cases slot fd with
  | none => exact h.same (s.setTask_same t)
  | some i =>
      dsimp only
      rw [h.closed i, vfsClose, if_pos rfl, Task.setFd_self _ (h.closed i)]
      exact h.same (s.setTask_same t)

theorem Books.write (h : Books s t own base T₀ T) {fd x : ℤ} {buf : Option (List UInt8)}
    (heq : sysWrite s.st (s.tasks t) fd buf = some (st', x)) : st' = s.st := by
  rw [sysWrite] at heq
  cases hslot : slot fd with
  | none =>
      rw [hslot] at heq
      exact (Prod.mk.inj (Option.some.inj heq)).1.symm
  | some i =>
      rw [hslot] at heq
      dsimp only at heq
      rw [if_pos (h.closed i)] at heq
      split_ifs at heq
      exact (Prod.mk.inj (Option.some.inj heq)).1.symm

theorem Books.read (h : Books s t own base T₀ T) {fd x : ℤ} {buf : Bool} {count : ℕ} {port bytes : List UInt8}
    (heq : sysRead s.st (s.tasks t) fd buf count port = some (st', x, bytes)) : st' = s.st := by
  rw [sysRead] at heq
  cases hslot : slot fd with
  | none =>
      rw [hslot] at heq
      exact (Prod.mk.inj (Option.some.inj heq)).1.symm
  | some i =>
      rw [hslot] at heq
      dsimp only at heq
      rw [if_pos (h.closed i)] at heq
      cases heq

theorem Books.lseek (h : Books s t own base T₀ T) (fd offset whence : ℤ) :
    (sysLseek64 s.st (s.tasks t) fd offset whence).1 = s.st := by
  rw [sysLseek64]
  cases slot fd with
  | none => rfl
  | some i =>
      dsimp only
      rw [h.closed i, vfsLseek64, if_pos rfl]

theorem Books.mkdir (h : Books s t own base T₀ T) (path : UserPath) :
    ∃ T', Books ⟨(sysMkdir s.st (s.tasks t) path).1, s.tasks⟩ t own base T₀ T' := by
  rw [sysMkdir]
  split_ifs with hmissing
  · exact ⟨T, h⟩
  rcases vfsMkdir_cases h.inv.tree (h.inv.cwd t) path.nul with
    ⟨st', r, heq, -, hext⟩ | ⟨st', dir, v, heq, hdir, -, hcan, hc⟩
  · simp only [heq]
    exact ⟨T, h.extend hext⟩
  · simp only [heq]
    exact ⟨_, h.created hdir hcan hc⟩

theorem Books.mount (h : Books s t own base T₀ T) {target filesystem : UserPath}
    (hready : RootClear s.st target.text filesystem.text)
    (hs : (sysMount s.st (s.tasks t) target filesystem).2 ≠ 0) :
    ∃ T', Books ⟨(sysMount s.st (s.tasks t) target filesystem).1, s.tasks⟩ t own base T₀ T' := by
  rw [sysMount] at hs ⊢
  split_ifs at hs ⊢ with hmissing
  · exact ⟨T, h⟩
  rcases vfsMount_cases h.inv.tree (h.inv.cwd t) target.nul hready with
    ⟨st', r, heq, -, hext⟩ | ⟨st', v, m, r, n, fs, ops, heq, -⟩
  · simp only [heq]
    exact ⟨T, h.extend hext⟩
  · simp only [heq] at hs
    exact absurd rfl hs

theorem vfsLookup_extends (h : Tree st T) (hnul : (0 : UInt8) ∉ path) (cells : Cells) :
    Extends st (vfsLookup st cells .cwd (some path)).1 [] := by
  by_cases hcopy : CopyOk st path
  · have hext := afterLookup_extends h.heap hcopy
    rw [vfsLookup_eq hnul hcopy]
    split_ifs <;> exact hext
  · have hcopy' : (strdup st path).2 = 0 := not_not.1 hcopy
    simp only [vfsLookup, if_pos hcopy']
    exact strdup_extends h.heap hcopy

theorem Books.chdir (h : Books s t own base T₀ T) (path : UserPath) :
    ∃ T', Books (s.setTask t (sysChdir s.st (s.tasks t) path).1 (sysChdir s.st (s.tasks t) path).2.1) t own
      base T₀ T' := by
  rw [sysChdir]
  split_ifs with hmissing
  · exact h.same (s.setTask_same t)
  obtain ⟨-, hcwd⟩ := vfsLookup_cwd h.inv.tree ⟨(s.tasks t).cwd, 0⟩ path.nul
  have hext := vfsLookup_extends h.inv.tree path.nul ⟨(s.tasks t).cwd, 0⟩
  exact ⟨T, (h.extend hext).setTask hcwd h.closed⟩

theorem Books.call (h : Books s t own base T₀ T) (hcall : Sys.SparingCall t s s') :
    ∃ T', Books s' t own base T₀ T' := by
  obtain ⟨op, x, hcaller, hvalid, hspares, heq⟩ := hcall
  cases op with
  | «open» u path flags =>
      obtain rfl := Option.some.inj hcaller
      obtain ⟨⟨st', task', x'⟩, hopen, heq⟩ := Option.bind_eq_some_iff.1 heq
      obtain ⟨rfl, -⟩ := Prod.mk.inj (Option.some.inj heq)
      exact h.open hspares hopen
  | close u fd =>
      obtain rfl := Option.some.inj hcaller
      obtain ⟨rfl, -⟩ := Prod.mk.inj (Option.some.inj heq)
      exact h.close fd
  | write u fd buf =>
      obtain rfl := Option.some.inj hcaller
      obtain ⟨⟨st', x'⟩, hwrite, heq⟩ := Option.bind_eq_some_iff.1 heq
      obtain ⟨rfl, -⟩ := Prod.mk.inj (Option.some.inj heq)
      obtain rfl := h.write hwrite
      exact ⟨T, h⟩
  | read u fd buf count port =>
      obtain rfl := Option.some.inj hcaller
      obtain ⟨⟨st', x', bytes⟩, hread, heq⟩ := Option.bind_eq_some_iff.1 heq
      obtain ⟨rfl, -⟩ := Prod.mk.inj (Option.some.inj heq)
      obtain rfl := h.read hread
      exact ⟨T, h⟩
  | lseek u fd offset whence =>
      obtain rfl := Option.some.inj hcaller
      obtain ⟨rfl, -⟩ := Prod.mk.inj (Option.some.inj heq)
      have hst := h.lseek fd offset whence
      refine ⟨T, ?_⟩
      change Books ⟨(sysLseek64 s.st (s.tasks u) fd offset whence).1, s.tasks⟩ u own base T₀ T
      rw [hst]
      exact h
  | mkdir u path =>
      obtain rfl := Option.some.inj hcaller
      obtain ⟨rfl, -⟩ := Prod.mk.inj (Option.some.inj heq)
      exact h.mkdir path
  | mount u target filesystem =>
      obtain rfl := Option.some.inj hcaller
      obtain ⟨rfl, -⟩ := Prod.mk.inj (Option.some.inj heq)
      exact h.mount hvalid hspares
  | chdir u path =>
      obtain rfl := Option.some.inj hcaller
      obtain ⟨rfl, -⟩ := Prod.mk.inj (Option.some.inj heq)
      exact h.chdir path
  | start u => cases hcaller
  | fork u held => cases hcaller
  | reap u th => cases hcaller
  | register name ops => cases hcaller
  | mknod u path ops => cases hcaller
  | fill u path entries => cases hcaller

theorem Books.run (h : Books s t own base T₀ T) (hrun : ReflTransGen (Sys.SparingCall t) s s') :
    ∃ T', Books s' t own base T₀ T' := by
  induction hrun with
  | refl => exact ⟨T, h⟩
  | tail _ hcall ih =>
      obtain ⟨T₁, h₁⟩ := ih
      exact h₁.call hcall

def SparesStd : List (Fin threadMaxFd) → State → Task → Prop
  | [], _, _ => True
  | i :: is, st, task => SparesOpen st task.cwd devUartPath 0 ∧
      ∀ st' task', openStd st task i = some (st', task') → SparesStd is st' task'

def stdFds : List (Fin threadMaxFd) := (List.finRange threadMaxFd).take 3

theorem stdFds_eq : stdFds = [⟨0, by decide⟩, ⟨1, by decide⟩, ⟨2, by decide⟩] := rfl

def beforeFrame (st : State) : State :=
  (((st.alloc sizeofThreadTask).1.alloc threadStackSize).1.alloc threadStackSize).1

/-- The starts that take no block but those that are freed: a fork whose block holds no descriptors and no
directory but that of a task, and a creation without memory for the signal frame and for handles. -/
def Start.Spares (s : Sys) : Start → Prop
  | .create => ((beforeFrame s.st).alloc sizeofTrapFrame).2 = 0 ∧
      SparesStd stdFds ((beforeFrame s.st).alloc sizeofTrapFrame).1
        ⟨((beforeFrame s.st).alloc sizeofTrapFrame).1.root, fun _ => 0⟩
  | .fork held => (held.2.cwd = 0 ∨ ∃ u, held.2.cwd = (s.tasks u).cwd) ∧ ∀ i, held.2.fdTable i = 0
  | .exec _ => False

def Thread.blocks (th : Thread) : List (ℕ × ℕ) :=
  [(th.userStack, threadStackSize), (th.kernelStack, threadStackSize), (th.task, sizeofThreadTask)]

structure Started (s : Sys) (st₁ : State) (th : Thread) (T : Set ℕ) : Prop where
  extend : Extends s.st st₁ th.blocks
  cwd : th.files.cwd = 0 ∨ th.files.cwd ∈ T
  closed : ∀ i, th.files.fdTable i = 0

/-- The three blocks of a thread, or none. -/
theorem stacks_cases (hok : st.heap.Ok) :
    (((st.alloc sizeofThreadTask).2 = 0 ∨ ((st.alloc sizeofThreadTask).1.alloc threadStackSize).2 = 0 ∨
      (((st.alloc sizeofThreadTask).1.alloc threadStackSize).1.alloc threadStackSize).2 = 0)) ∨
    ∃ task kernelStack userStack st₁ st₂, st.alloc sizeofThreadTask = (st₁, task) ∧ task ≠ 0 ∧
      st₁.alloc threadStackSize = (st₂, kernelStack) ∧ kernelStack ≠ 0 ∧
      st₂.alloc threadStackSize = (beforeFrame st, userStack) ∧ userStack ≠ 0 ∧
      Extends st (beforeFrame st) [(userStack, threadStackSize), (kernelStack, threadStackSize),
        (task, sizeofThreadTask)] := by
  cases takesStacks hok with
  | noTask h₁ => exact Or.inl (Or.inl (by rw [h₁]))
  | noKernelStack h₁ _ h₂ => exact Or.inl (Or.inr (Or.inl (by rw [h₁, h₂])))
  | noUserStack h₁ _ h₂ _ h₃ => exact Or.inl (Or.inr (Or.inr (by rw [h₁, h₂, h₃])))
  | @all _ _ st₃ _ _ _ h₁ htask h₂ hkernel h₃ huser hext =>
      have hbefore : beforeFrame st = st₃ := by rw [beforeFrame, h₁, h₂, h₃]
      rw [hbefore]
      exact Or.inr ⟨_, _, _, _, _, h₁, htask, h₂, hkernel, h₃, huser, hext⟩

/-- Opening the descriptors of a thread takes blocks and frees none. -/
theorem openStd_extends (hok : st.heap.Ok) (heq : openStd st task i = some (st', task')) :
    ∃ bs, Extends st st' bs := by
  rw [openStd] at heq
  obtain ⟨⟨st₁, ret, file⟩, hopen, heq⟩ := Option.bind_eq_some_iff.1 heq
  obtain ⟨rfl, -⟩ := Prod.mk.inj (Option.some.inj heq)
  obtain ⟨hext, -⟩ := lookupPath_extends hok (by decide : (0 : UInt8) ∉ devUartPath) task.cwd
  rw [vfsOpen] at hopen
  generalize lookupPath st task.cwd devUartPath = look at hopen hext
  obtain ⟨st₂, result, v⟩ := look
  dsimp only at hopen hext
  split_ifs at hopen with hresult hcreat
  · exact absurd hcreat (by decide)
  · obtain ⟨rfl, -⟩ := Prod.mk.inj (Option.some.inj hopen)
    exact ⟨[], hext⟩
  · have hv : v ≠ 0 := by
      rintro rfl
      simp [vfsOpenVnode] at hopen
    cases hops : (st₂.vnodes v).fOps with
    | none =>
        simp only [vfsOpenVnode, if_neg hv] at hopen
        rw [show ((st₂.alloc sizeofFile).1.vnodes v).fOps = none from hops] at hopen
        cases hopen
    | some ops =>
        have hopens : OpensVnode st₂ v ops 0 := opensVnode hext.ok hv hops
        rcases hopens with ⟨st₃, r, bs, hsome, -, hopens, -⟩ | ⟨st₃, f, bs, hsome, hopens, -⟩
        · obtain ⟨rfl, -⟩ := Prod.mk.inj (Option.some.inj (hsome.symm.trans hopen))
          exact ⟨_, hext.trans hopens.extend⟩
        · obtain ⟨rfl, -⟩ := Prod.mk.inj (Option.some.inj (hsome.symm.trans hopen))
          exact ⟨_, hext.trans hopens.extend⟩

theorem openStdFiles_extends (hok : st.heap.Ok) (heq : openStdFiles st task = some (st', task')) :
    ∃ bs, Extends st st' bs := by
  rw [openStdFiles] at heq
  obtain ⟨⟨st₁, task₁⟩, heq₁, heq⟩ := Option.bind_eq_some_iff.1 heq
  obtain ⟨⟨st₂, task₂⟩, heq₂, heq₃⟩ := Option.bind_eq_some_iff.1 heq
  obtain ⟨bs₁, hext₁⟩ := openStd_extends hok heq₁
  obtain ⟨bs₂, hext₂⟩ := openStd_extends hext₁.ok heq₂
  obtain ⟨bs₃, hext₃⟩ := openStd_extends hext₂.ok heq₃
  exact ⟨_, (hext₁.trans hext₂).trans hext₃⟩

theorem openStd_spared (h : Tree st T) (hcwd : task.cwd = 0 ∨ task.cwd ∈ T)
    (hs : SparesOpen st task.cwd devUartPath 0) (hi : task.fdTable i = 0)
    (heq : openStd st task i = some (st', task')) : task' = task ∧ Extends st st' [] := by
  rw [openStd] at heq
  obtain ⟨⟨st₁, ret, file⟩, hopen, heq⟩ := Option.bind_eq_some_iff.1 heq
  obtain ⟨rfl, rfl⟩ := Prod.mk.inj (Option.some.inj heq)
  have hnul : (0 : UInt8) ∉ devUartPath := by decide
  obtain ⟨hext, -⟩ := afterFind_extends h hnul task.cwd
  rcases found_or_missing st task.cwd devUartPath with ⟨v, hfind⟩ | hmissing
  · rw [vfsOpen_found hfind] at hopen
    have hv := h.resolvePath_mem hcwd ((lookupFinds_iff hnul).1 hfind).2
    obtain ⟨-, rfl, hext'⟩ := vfsOpenVnode_spared (h.extend hext) hv (hs.found v hfind) hopen
    exact ⟨Task.setFd_self task hi, hext.trans hext'⟩
  · rw [vfsOpen_missing hmissing (by decide)] at hopen
    obtain ⟨rfl, -, rfl⟩ : afterFind st task.cwd devUartPath = st₁ ∧ _ ∧ 0 = file := by simpa using hopen
    exact ⟨Task.setFd_self task hi, hext⟩

theorem openStdFiles_spared (h : Tree st T) (hcwd : task.cwd = 0 ∨ task.cwd ∈ T)
    (hs : SparesStd stdFds st task)
    (hclosed : ∀ i, task.fdTable i = 0) (heq : openStdFiles st task = some (st', task')) :
    task' = task ∧ Extends st st' [] := by
  rw [openStdFiles] at heq
  obtain ⟨⟨st₁, task₁⟩, heq₁, heq⟩ := Option.bind_eq_some_iff.1 heq
  obtain ⟨⟨st₂, task₂⟩, heq₂, heq₃⟩ := Option.bind_eq_some_iff.1 heq
  rw [stdFds_eq] at hs
  obtain ⟨hs₁, hs⟩ := hs
  obtain ⟨hs₂, hs⟩ := hs st₁ task₁ heq₁
  obtain ⟨hs₃, -⟩ := hs st₂ task₂ heq₂
  obtain ⟨rfl, hext₁⟩ := openStd_spared h hcwd hs₁ (hclosed _) heq₁
  have h₁ := h.extend hext₁
  obtain ⟨rfl, hext₂⟩ := openStd_spared h₁ hcwd hs₂ (hclosed _) heq₂
  have h₂ := h₁.extend hext₂
  obtain ⟨rfl, hext₃⟩ := openStd_spared h₂ hcwd hs₃ (hclosed _) heq₃
  exact ⟨rfl, (hext₁.trans hext₂).trans hext₃⟩

theorem createThread_started {th : Thread} (h : Tree s.st T) (hs : Start.Spares s .create)
    (heq : createThread s.st = some (st₁, some th)) : Started s st₁ th T := by
  obtain ⟨hframe, hstd⟩ := hs
  rcases stacks_cases h.heap with
    hnone | ⟨task, kernelStack, userStack, st₂, st₃, heq₁, htask, heq₂, hkernel, heq₃, huser, hext⟩
  · simp only [createThread] at heq
    split_ifs at heq with h₁ h₂ h₃
    · cases heq
    · cases heq
    · cases heq
    · rcases hnone with h0 | h0 | h0
      · exact absurd h0 h₁
      · exact absurd h0 h₂
      · exact absurd h0 h₃
  simp only [createThread, heq₁, if_neg htask, heq₂, if_neg hkernel, heq₃, if_neg huser] at heq
  obtain ⟨⟨st₄, files⟩, hfiles, heq⟩ := Option.bind_eq_some_iff.1 heq
  obtain ⟨rfl, hth⟩ := Prod.mk.inj (Option.some.inj heq)
  obtain rfl := Option.some.inj hth
  have hext₄ : Extends (beforeFrame s.st) ((beforeFrame s.st).alloc sizeofTrapFrame).1 [] := by
    rcases State.alloc_cases hext.ok (n := sizeofTrapFrame) (by decide) with
      ⟨st₅, heq₅, hext₅⟩ | ⟨st₅, p, heq₅, hp, -⟩
    · rw [heq₅]
      exact hext₅
    · rw [heq₅] at hframe
      exact absurd hframe hp
  have hext' := hext.trans hext₄
  have htree := h.extend hext'
  obtain ⟨rfl, hext₅⟩ := openStdFiles_spared htree (Or.inr htree.root) hstd (fun _ => rfl) hfiles
  have hroot : ((beforeFrame s.st).alloc sizeofTrapFrame).1.root = s.st.root := (Grows.extend h hext').root
  refine ⟨hext'.trans hext₅, Or.inr ?_, fun _ => rfl⟩
  change State.root _ ∈ T
  rw [hroot]
  exact h.root

theorem sysFork_extends {th : Thread} {held : ℕ × Task} (hok : st.heap.Ok)
    (heq : sysFork st held = (st₁, some th)) : Extends st st₁ th.blocks ∧ th.files = held.2 := by
  rcases stacks_cases hok with
    hnone | ⟨task, kernelStack, userStack, st₂, st₃, heq₁, htask, heq₂, hkernel, heq₃, huser, hext⟩
  · simp only [sysFork] at heq
    split_ifs at heq with h₁ h₂ h₃
    · cases heq
    · cases heq
    · cases heq
    · rcases hnone with h0 | h0 | h0
      · exact absurd h0 h₁
      · exact absurd h0 h₂
      · exact absurd h0 h₃
  simp only [sysFork, heq₁, if_neg htask, heq₂, if_neg hkernel, heq₃, if_neg huser] at heq
  obtain ⟨rfl, hth⟩ := Prod.mk.inj heq
  obtain rfl := Option.some.inj hth
  exact ⟨hext, rfl⟩

theorem Start.Spares.started {start : Start} {th : Thread} (h : s.Inv T) (hs : start.Spares s)
    (heq : start.run s.st = some (st₁, some th)) : Started s st₁ th T := by
  cases start with
  | create => exact createThread_started h.tree hs heq
  | fork held =>
      obtain ⟨hext, hfiles⟩ := sysFork_extends h.tree.heap (Option.some.inj heq)
      refine ⟨hext, ?_, fun i => ?_⟩
      · rw [hfiles]
        rcases hs.1 with h0 | ⟨u, hu⟩
        · exact Or.inl h0
        · rw [hu]
          exact h.cwd u
      · rw [hfiles]
        exact hs.2 i
  | exec bytes => exact hs.elim

/-- A block that is none of the blocks of the tree. -/
theorem Tree.free_block (h : Tree st T) {k : ℕ} (hp : (p, k) ∈ st.heap.live) (hv : k ≠ sizeofVnode)
    (hn : k ≠ sizeofNode) (hm : k ≠ sizeofMount)
    (hdata : ∀ v ∈ T, IsDataFile st v → ((st.internal v).data, (st.internal v).capacity) ≠ (p, k)) :
    Tree (st.free p) T := by
  have hkeep : ∀ x n, (x, n) ∈ st.heap.live → (x, n) ≠ (p, k) → (x, n) ∈ (st.free p).heap.live := by
    intro x n hx hne
    exact Heap.mem_free.2 ⟨hx, fun heq => hne (h.heap.eq_of_start hx hp heq)⟩
  have hsize : ∀ x n, (x, n) ∈ st.heap.live → k ≠ n → (x, n) ∈ (st.free p).heap.live :=
    fun x n hx hne => hkeep x n hx fun heq => hne (Prod.mk.inj heq).2.symm
  refine ⟨h.heap.free p, hsize _ _ h.rootfs hm, h.root, h.rootMount, ?_, ?_, h.node_inj, h.vOps, h.fOps,
    h.parent, h.child, ?_, ?_, h.data_inj, ?_⟩
  · exact fun v hv' => hsize _ _ (h.vnode v hv') hv
  · exact fun v hv' => hsize _ _ (h.node v hv') hn
  · exact fun v hv' hm' => ⟨hsize _ _ (h.mount v hv' hm').1 hm, (h.mount v hv' hm').2⟩
  · exact fun v hv' hf => ⟨hkeep _ _ (h.data v hv' hf).1 (hdata v hv' hf), (h.data v hv' hf).2⟩
  · exact fun f hf => ⟨hsize _ _ (h.fs f hf).1 hm, (h.fs f hf).2⟩

theorem mem_reap {th : Thread} :
    b ∈ (reap st th).heap.live ↔ b ∈ st.heap.live ∧ ∀ c ∈ th.blocks, b.1 ≠ c.1 := by
  simp only [reap, Thread.blocks, List.forall_mem_cons, List.not_mem_nil, false_implies, implies_true,
    and_true]
  change b ∈ (((st.heap.free th.kernelStack).free th.userStack).free th.task).live ↔ _
  rw [Heap.mem_free, Heap.mem_free, Heap.mem_free]
  exact ⟨fun ⟨⟨⟨hb, hk⟩, hu⟩, ht⟩ => ⟨hb, hu, hk, ht⟩, fun ⟨hb, hu, hk, ht⟩ => ⟨⟨⟨hb, hk⟩, hu⟩, ht⟩⟩

theorem Thread.mem_blocks {th : Thread} (hb : b ∈ th.blocks) :
    b.2 ≠ sizeofVnode ∧ b.2 ≠ sizeofNode ∧ b.2 ≠ sizeofMount := by
  simp only [Thread.blocks, List.mem_cons, List.not_mem_nil, or_false] at hb
  rcases hb with rfl | rfl | rfl
  all_goals
    dsimp only
    decide

theorem Started.stacks_ne {th : Thread} (h : Started s st₁ th T) : th.kernelStack ≠ th.userStack ∧
    th.task ≠ th.userStack ∧ th.task ≠ th.kernelStack := by
  have hapart := h.extend.ok.apart
  rw [h.extend.live, Thread.blocks] at hapart
  simp only [List.cons_append, List.pairwise_cons, List.mem_cons, forall_eq_or_imp] at hapart
  obtain ⟨⟨huk, hut, -⟩, ⟨hkt, -⟩, -⟩ := hapart
  have hsizes : threadStackSize = 4096 ∧ sizeofThreadTask = 576 := by decide
  simp only [Apart, hsizes.1, hsizes.2] at huk hut hkt
  omega

/-- The blocks of a new vnode are not those of the thread. -/
theorem Books.block_apart (h : Books s t own base T₀ T) (hsize : ∀ c ∈ own, c.2 ≠ sizeofVnode ∧
    c.2 ≠ sizeofNode ∧ c.2 ≠ sizeofMount) (hv : v ∈ T) (hb : TmpfsBlock s.st v b) : b ∉ own := by
  intro hown
  obtain ⟨hvsize, hnsize, -⟩ := hsize b hown
  obtain ⟨hops, rfl | rfl | ⟨htype, rfl⟩⟩ := hb
  · exact hvsize rfl
  · exact hnsize rfl
  · exact h.apart v hv ⟨hops, htype⟩ hown

theorem Books.reap_tree {th : Thread} (h : Books s t th.blocks base T₀ T)
    (hne : th.kernelStack ≠ th.userStack ∧ th.task ≠ th.userStack ∧ th.task ≠ th.kernelStack) :
    Tree (reap s.st th) T := by
  have hown : ∀ c ∈ th.blocks, c ∈ s.st.heap.live := fun c hc => (h.live c).2 (Or.inl hc)
  have huser : (th.userStack, threadStackSize) ∈ th.blocks := by simp [Thread.blocks]
  have hkernel : (th.kernelStack, threadStackSize) ∈ th.blocks := by simp [Thread.blocks]
  have htask : (th.task, sizeofThreadTask) ∈ th.blocks := by simp [Thread.blocks]
  have hdata : ∀ c ∈ th.blocks, ∀ v ∈ T, IsDataFile s.st v →
      ((s.st.internal v).data, (s.st.internal v).capacity) ≠ c := by
    rintro c hc v hv hf rfl
    exact h.apart v hv hf hc
  have h₁ : Tree (s.st.free th.kernelStack) T := by
    obtain ⟨hv, hn, hm⟩ := Thread.mem_blocks hkernel
    exact h.inv.tree.free_block (hown _ hkernel) hv hn hm (hdata _ hkernel)
  have h₂ : Tree ((s.st.free th.kernelStack).free th.userStack) T := by
    obtain ⟨hv, hn, hm⟩ := Thread.mem_blocks huser
    exact h₁.free_block (Heap.mem_free.2 ⟨hown _ huser, hne.1.symm⟩) hv hn hm (hdata _ huser)
  obtain ⟨hv, hn, hm⟩ := Thread.mem_blocks htask
  refine h₂.free_block (Heap.mem_free.2 ⟨Heap.mem_free.2 ⟨hown _ htask, hne.2.2⟩, hne.2.1⟩) hv hn hm
    (hdata _ htask)

theorem Books.conserves {th : Thread} {T₁ : Set ℕ} (h : Books s' t th.blocks s.st.heap.live T T₁)
    (htree : Tree s.st T) (hs : Started s st₁ th T) : Conserves s.st (reap s'.st th) := by
  refine ⟨T, T₁, htree, h.reap_tree hs.stacks_ne, h.subset, fun b => ?_⟩
  have hiff : (∃ v ∈ T₁, v ∉ T ∧ TmpfsBlock (reap s'.st th) v b) ↔
      ∃ v ∈ T₁, v ∉ T ∧ TmpfsBlock s'.st v b := Iff.rfl
  rw [mem_reap, h.live b, hiff]
  constructor
  · rintro ⟨hown | hrest, hno⟩
    · exact absurd rfl (hno b hown)
    · exact hrest
  · rintro (hbase | hnew)
    · exact ⟨Or.inr (Or.inl hbase), fun c hc => hs.extend.fresh hc b hbase⟩
    · refine ⟨Or.inr (Or.inr hnew), fun c hc heq => ?_⟩
      have hlive := (h.live b).2 (Or.inr (Or.inr hnew))
      obtain ⟨v, hv, -, hb⟩ := hnew
      have hsame := h.inv.tree.heap.eq_of_start hlive ((h.live c).2 (Or.inl hc)) heq
      exact h.block_apart (fun c hc => Thread.mem_blocks hc) hv hb (hsame ▸ hc)

theorem Started.books {th : Thread} (hs : Started s st₁ th T) (h : s.Inv T) (t : ℕ) :
    Books (s.setTask t st₁ th.files) t th.blocks s.st.heap.live T T := by
  have hg := Grows.extend h.tree hs.extend
  have htask : (s.setTask t st₁ th.files).Inv T :=
    (h.grows hg).setTask hs.cwd (fun i hne => absurd (hs.closed i) hne)
      (fun i _ hne => absurd (hs.closed i) hne) fun i _ _ _ hne => absurd (hs.closed i) hne
  refine ⟨htask, Set.Subset.rfl, fun i => ?_, fun b => ?_, fun v hv hf hown => ?_⟩
  · rw [Sys.tasks_setTask]
    exact hs.closed i
  · change b ∈ st₁.heap.live ↔ _
    rw [hs.extend.live, List.mem_append]
    refine or_congr_right (Iff.symm (or_iff_left ?_))
    rintro ⟨v, hv, hnew, -⟩
    exact hnew hv
  · have hvnode := hs.extend.vnode _ (h.tree.vnode v hv)
    have hint := h.tree.ownNodes.internal hs.extend hv
    change IsDataFile st₁ v at hf
    change ((st₁.internal v).data, _) ∈ th.blocks at hown
    rw [IsDataFile, hvnode, hint] at hf
    rw [hint] at hown
    exact hs.extend.fresh hown _ (h.tree.data v hv hf).1 rfl

/-- A thread that takes no handle, mounts no file system and starts with the blocks only that are freed with
it conserves the heap. A forked thread does so too when it makes no call, whatever its block holds. -/
theorem thread_conserves {s : Sys} (hs : s.Reachable) (t : ℕ) {start : Start} {st₁ : State} {th : Thread}
    {s₂ : Sys} (heq : start.run s.st = some (st₁, some th))
    (hrun : ReflTransGen (Sys.SparingCall t) (s.setTask t st₁ th.files) s₂)
    (hspares : start.Spares s ∨ (∃ held, start = .fork held) ∧ s₂ = s.setTask t st₁ th.files) :
    Conserves s.st (killZombies s₂.st [th]) := by
  obtain ⟨T, h⟩ := hs.inv
  rcases hspares with hspares | ⟨⟨held, rfl⟩, rfl⟩
  · have hstarted := hspares.started h heq
    obtain ⟨T', hbooks⟩ := (hstarted.books h t).run hrun
    exact hbooks.conserves h.tree hstarted
  · obtain ⟨hext, -⟩ := sysFork_extends h.tree.heap (Option.some.inj heq)
    -- The files of the child are not looked at.
    have hclean : Started s st₁ { th with files := Task.idle } T := ⟨hext, Or.inl rfl, fun _ => rfl⟩
    exact (hclean.books h t).conserves h.tree hclean

theorem sysFork_blank : (sysFork Sys.blank.st (0, Task.idle)).2.isSome := by decide

def Thread.child : Thread := (sysFork Sys.blank.st (0, Task.idle)).2.get sysFork_blank

def Sys.forked : Sys := Sys.blank.setTask 1 (sysFork Sys.blank.st (0, Task.idle)).1 Thread.child.files

theorem pathA_nul : (0 : UInt8) ∉ ([47, 97] : List UInt8) := by decide

def SysOp.mkdirChild : SysOp := .mkdir 1 ⟨1, [47, 97], pathA_nul⟩

theorem Sys.forked_mkdir : (Sys.forked.step .mkdirChild).isSome := by decide

/-- A forked thread makes a directory and ends. -/
theorem thread_conserves_child :
    Sys.blank.Reachable ∧ Conserves Sys.blank.st
      (killZombies (Sys.forked.after .mkdirChild Sys.forked_mkdir).st [Thread.child]) := by
  have hfork : Start.run Sys.blank.st (.fork (0, Task.idle)) =
      some ((sysFork Sys.blank.st (0, Task.idle)).1, some Thread.child) := by
    rw [Thread.child, Option.some_get]
    rfl
  have hcall : Sys.SparingCall 1 Sys.forked (Sys.forked.after .mkdirChild Sys.forked_mkdir) :=
    ⟨.mkdirChild, ((Sys.forked.step .mkdirChild).get Sys.forked_mkdir).2, rfl, trivial, trivial,
      (Option.some_get Sys.forked_mkdir).symm⟩
  exact ⟨Sys.blank_reachable, thread_conserves Sys.blank_reachable 1 hfork (ReflTransGen.single hcall)
    (Or.inl ⟨Or.inl rfl, fun _ => rfl⟩)⟩

/-- A block that is too small for the data of a file, and none of the others. -/
theorem not_conserves (hnew : b ∈ st'.heap.live) (hold : b ∉ st.heap.live) (hv : b.2 ≠ sizeofVnode)
    (hn : b.2 ≠ sizeofNode) (hsmall : b.2 < defaultFileSize) : ¬ Conserves st st' := by
  rintro ⟨T, T', -, htree, -, hlive⟩
  obtain ⟨v, hv', -, hops, rfl | rfl | ⟨htype, rfl⟩⟩ := ((hlive b).1 hnew).resolve_left hold
  · exact hv rfl
  · exact hn rfl
  · obtain ⟨-, k, hk⟩ := htree.data v hv' ⟨hops, htype⟩
    have hpow : 1 ≤ 2 ^ k := Nat.one_le_two_pow
    have hle : defaultFileSize * 1 ≤ defaultFileSize * 2 ^ k := Nat.mul_le_mul_left _ hpow
    simp only [hk] at hsmall
    omega

theorem createThread_blank : (createThread Sys.blank.st).isSome := by decide

theorem createThread_blank_thread : ((createThread Sys.blank.st).get createThread_blank).2.isSome := by
  decide

def Thread.created : Thread :=
  ((createThread Sys.blank.st).get createThread_blank).2.get createThread_blank_thread

/-- A thread that `thread_create` has made leaves its signal frame when it ends at once. -/
theorem thread_leaks_frame :
    Sys.blank.Reachable ∧ ∃ st₁, Start.run Sys.blank.st .create = some (st₁, some Thread.created) ∧
      ¬ Conserves Sys.blank.st (killZombies st₁ [Thread.created]) := by
  have hlive : (Thread.created.sigFrame, sizeofTrapFrame) ∈
      (killZombies ((createThread Sys.blank.st).get createThread_blank).1 [Thread.created]).heap.live ∧
      (Thread.created.sigFrame, sizeofTrapFrame) ∉ Sys.blank.st.heap.live := by decide
  refine ⟨Sys.blank_reachable, ((createThread Sys.blank.st).get createThread_blank).1, ?_, ?_⟩
  · rw [Thread.created, Option.some_get]
    exact (Option.some_get createThread_blank).symm
  · exact not_conserves hlive.1 hlive.2 (by decide) (by decide) (by decide)

end OscKernel.Vfs
