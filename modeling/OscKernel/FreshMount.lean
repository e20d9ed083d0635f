import OscKernel.MountLaw
import OscKernel.MountOutcome
import OscKernel.VfsNamespace

/-!
# A fresh mount

`alloc` does not clear the blocks that it hands out. The root of a new tmpfs has every field set by
`tmpfs_setup_mount`; that of an initramfs has the kind and the number of children that its block held. A
negative number of children is `0` here, as for the loop of the lookup.
-/

namespace OscKernel.Vfs

open Relation Runs

variable {s s₁ s₂ s' : Sys} {st st₁ st' base linked : State} {T T' : Set ℕ} {v r m n fs cwd t : ℕ}
  {path name : List UInt8} {x : ℤ} {op : SysOp}

def State.Starts (st : State) (p : ℕ) : Prop := ∃ b ∈ st.heap.live, b.1 = p

instance (st : State) (p : ℕ) : Decidable (st.Starts p) := inferInstanceAs (Decidable (∃ b ∈ _, _))

def State.Holds (st : State) (a : ℕ) : Prop := ∃ b ∈ st.heap.live, b.1 ≤ a ∧ a < b.1 + b.2

instance (st : State) (a : ℕ) : Decidable (st.Holds a) := inferInstanceAs (Decidable (∃ b ∈ _, _))

/-- The same blocks are in use with the same contents, and the rest of the memory holds what it holds in
`old`. -/
def State.recycled (st old : State) : State :=
  { st with
    vnodes := fun p => if st.Starts p then st.vnodes p else old.vnodes p
    nodes := fun p => if st.Starts p then st.nodes p else old.nodes p
    mounts := fun p => if st.Starts p then st.mounts p else old.mounts p
    files := fun p => if st.Starts p then st.files p else old.files p
    mem := fun a => if st.Holds a then st.mem a else old.mem a }

theorem State.recycled_extends (hok : st.heap.Ok) (old : State) :
    Extends { st with mem := (st.recycled old).mem } (st.recycled old) [] := by
  have hstart : ∀ b ∈ st.heap.live, st.Starts b.1 := fun b hb => ⟨b, hb, rfl⟩
  refine ⟨hok, rfl, ?_, ?_, ?_, ?_, fun _ _ => rfl, rfl, rfl, rfl⟩ <;> intro b hb <;>
    exact if_pos (hstart b hb)

theorem State.recycled_grows (h : Tree st T) (old : State) : Grows st (st.recycled old) T T := by
  have hg := Grows.extend (h.setMem _) (State.recycled_extends h.heap old)
  have hmem : MountsKept st { st with mem := (st.recycled old).mem } T T :=
    MountsKept.same h rfl rfl (fun _ => SameShape.refl _) rfl rfl rfl
  exact ⟨hg.tree, hg.subset, hg.root, hg.vOps, hg.handle, hmem.trans hg.mounts Set.Subset.rfl⟩

theorem State.recycled_places (h : Tree st T) (old : State) : Places st (st.recycled old) T := by
  have hmem : Places st { st with mem := (st.recycled old).mem } T :=
    Places.same rfl rfl rfl fun _ => ⟨SameShape.refl _, rfl⟩
  exact hmem.trans (Places.extend (h.setMem _) (State.recycled_extends h.heap old)) Set.Subset.rfl

/-- The blocks that are handed out are the same. -/
theorem mountNode_recycled (st old : State) (path : List UInt8) :
    mountNode (st.recycled old) path = mountNode st path := rfl

theorem recycled_node (hok : st.heap.Ok) (old : State) (path : List UInt8) :
    (st.recycled old).nodes (mountNode st path) = old.nodes (mountNode st path) := by
  refine if_neg fun ⟨b, hb, heq⟩ => ?_
  exact mountNode_fresh hok path b hb heq

/-- A call of `vfs_mount` that returns `0` has linked the vnode of the path and set up a file system. -/
theorem vfsMount_zero (h : Tree st T) (hcwd : cwd = 0 ∨ cwd ∈ T) (hnul : (0 : UInt8) ∉ path)
    (h0 : vfsMount st cwd (some path) (some name) = (st', 0)) :
    ∃ f ops v, findFilesystem st name = some f ∧ (st.fsTable f).setupMount = some ops ∧ v ∈ T ∧
      resolvePath st cwd path = .ok v ∧ (st.vnodes v).mount = 0 ∧
      (st.vnodes v).parentIsMount = false ∧ ((afterLookup st path).alloc sizeofMount).2 ≠ 0 ∧
      (ops.setupMount (linkedState st path v f).1 f (linkedState st path v f).2).2 = 0 ∧
      st' = (ops.setupMount (linkedState st path v f).1 f (linkedState st path v f).2).1.setVnode
        ((ops.setupMount (linkedState st path v f).1 f (linkedState st path v f).2).1.mounts
          (linkedState st path v f).2).root fun e => { e with parent := v } := by
  have hnul' : ∀ p ∈ some path, (0 : UInt8) ∉ p := fun p hp => Option.some.inj hp ▸ hnul
  rw [← vfsMountIn_table st cwd hnul'] at h0
  rcases vfsMountIn_cases h hcwd hnul st.table name with ⟨hx, -⟩ | ⟨r, v, hl, hv, heq⟩
  · rw [h0] at hx
    exact absurd rfl hx
  have hfind : findIn st.table name = (findFilesystem st name).map fun f =>
      ⟨f, (st.fsTable f).name, SetupMount.ofTable (st.fsTable f).setupMount⟩ := List.find?_map ..
  rw [hl.found] at hfind
  obtain ⟨f, hf, rfl⟩ := Option.map_eq_some_iff.1 hfind.symm
  rw [h0, finishMount] at heq
  cases hops : (st.fsTable f).setupMount with
  | none =>
      rw [hops] at heq
      exact absurd (Prod.mk.inj heq).2 (by decide)
  | some ops =>
      rw [hops] at heq
      change (st', (0 : ℤ)) = if (ops.setupMount (linkedState st path v f).1 f
        (linkedState st path v f).2).2 ≠ 0 then _ else _ at heq
      split_ifs at heq with hx
      · exact absurd (Prod.mk.inj heq).2.symm hx
      · exact ⟨f, ops, v, hf, hops, hv, ((lookupFinds_iff hnul).1 hl.target).2, hl.mount, hl.plain, hl.room,
          not_not.1 hx, (Prod.mk.inj heq).1⟩

/-- An initramfs has been set up: its root has the node that its block held. -/
theorem initramfsSetupMount_zero (he : Extends base linked [(m, sizeofMount)])
    (hm : Extends.Fresh base m) (hfs : fs ≠ 0) (hm0 : m ≠ 0)
    (h0 : (initramfsSetupMount linked fs m).2 = 0) :
    ∃ r bs, ((initramfsSetupMount linked fs m).1.mounts m).root = r ∧ Extends.Fresh base r ∧
      Extends base (initramfsSetupMount linked fs m).1 bs ∧
      (initramfsSetupMount linked fs m).1.internal r = linked.nodes (linked.alloc sizeofNode).2 ∧
      ((linked.nodes (linked.alloc sizeofNode).2).numChildren = 0 →
        SetUp base (initramfsSetupMount linked fs m).1 [(m, sizeofMount)] .initramfs m r
          (linked.alloc sizeofNode).2 fs) := by
  have hnull : ¬ (fs = 0 ∨ m = 0) := fun h => h.elim hfs hm0
  rcases State.alloc_cases he.ok (n := sizeofNode) (by decide) with
    ⟨st₁, heq, hext⟩ | ⟨st₁, n, heq, hn, hfresh, hext, -, hn₁, -, -⟩
  · simp only [initramfsSetupMount, if_neg hnull, heq, if_true] at h0
    exact absurd h0 (by decide)
  rcases State.alloc_cases hext.ok (n := sizeofVnode) (by decide) with
    ⟨st₂, heq₂, -⟩ | ⟨st₂, r, heq₂, hr0, hrfresh, hext₂, -, hn₂, -⟩
  · simp only [initramfsSetupMount, if_neg hnull, heq, if_neg hn, heq₂, if_true] at h0
    exact absurd h0 (by decide)
  have hst : (initramfsSetupMount linked fs m).1 =
      (st₂.setMount m fun _ => ⟨r, fs⟩).setVnode r fun e =>
        { e with mount := 0, vOps := some .initramfs, fOps := some .initramfs, internal := n,
                 parentIsMount := true } := by
    simp only [initramfsSetupMount, if_neg hnull, heq, if_neg hn, heq₂, if_neg hr0]
  rw [hst, heq]
  have hr : Extends.Fresh base r := fun b hb => hrfresh b ((he.trans hext).mem_live hb)
  refine ⟨r, _, ?_, hr, (((he.trans hext).trans hext₂).setMount hm _).setVnode hr _, ?_, fun hempty => ?_⟩
  · change (Function.update st₂.mounts m _ m).root = r
    rw [Function.update_self]
  · rw [State.internal, State.vnodes_setVnode_self]
    change st₂.nodes n = _
    rw [hn₂, hn₁]
  · exact setUp_made he hm .initramfs fs hext heq₂ hr0 (by rw [hn₁]; exact hempty) fun hops => by cases hops

def SysOp.Creates : SysOp → Prop
  | .open _ _ flags => oCreat flags = true
  | .mkdir .. | .mknod .. | .fill .. => True
  | _ => False

def Sys.Quiet (s s' : Sys) : Prop := ∃ op x, s.Valid op ∧ ¬ op.Creates ∧ s.step op = some (s', x)

def SameCounts (st st' : State) (T : Set ℕ) : Prop :=
  ∀ w ∈ T, (st'.internal w).numChildren = (st.internal w).numChildren

theorem SameNames.counts (h : SameNames st st') : SameCounts st st' T := by
  intro w _
  rw [State.internal, h.vnodes]
  exact (h.node _).1.numChildren

theorem SameTree.counts (h : SameTree st st') : SameCounts st st' T := (SameNames.of_sameTree h).counts

theorem Extends.counts (h : Tree st T) {bs : List (ℕ × ℕ)} (he : Extends st st' bs) :
    SameCounts st st' T := by
  intro w hw
  rw [State.internal, he.vnode _ (h.vnode w hw)]
  exact congrArg Node.numChildren (he.node _ (h.node w hw))

theorem SameCounts.trans (h₁ : SameCounts st st₁ T) (h₂ : SameCounts st₁ st' T) : SameCounts st st' T :=
  fun w hw => (h₂ w hw).trans (h₁ w hw)

theorem vfsOpen_quiet (h : Tree st T) (hcwd : cwd = 0 ∨ cwd ∈ T) (hnul : (0 : UInt8) ∉ path)
    {flags : BitVec 32} {target file : ℕ} (hcreat : ¬ oCreat flags)
    (heq : vfsOpen st cwd (some path) flags target = some (st', x, file)) : SameTree st st' := by
  rcases found_or_missing st cwd path with ⟨v, hfind⟩ | hmissing
  · obtain ⟨hext, hsame⟩ := afterFind_extends h hnul cwd
    have hv := h.resolvePath_mem hcwd ((lookupFinds_iff hnul).1 hfind).2
    rw [vfsOpen_found hfind] at heq
    exact hsame.trans (vfsOpenVnode_sameTree (h.extend hext) hv heq)
  · obtain ⟨st₁, r₁, heq₁, -, hsame⟩ := vfsOpen_plain h hnul hmissing hcreat target
    rw [heq] at heq₁
    have hst : st' = st₁ := congrArg Prod.fst (Option.some.inj heq₁)
    rw [hst]
    exact hsame

theorem vfsLookup_sameTree (hnul : (0 : UInt8) ∉ path) (st : State) (cells : Cells) (target : Target) :
    SameTree st (vfsLookup st cells target (some path)).1 := by
  by_cases hcopy : CopyOk st path
  · rw [vfsLookup_eq hnul hcopy]
    split_ifs <;> exact ⟨rfl, rfl, rfl, rfl⟩
  · have hcopy' : (strdup st path).2 = 0 := not_not.1 hcopy
    simp only [vfsLookup, if_pos hcopy']
    exact sameTree_strdup st path

/-- The files of a new thread are opened. -/
theorem openStd_quiet {s : Sys} {T : Set ℕ} (h : s.Inv T) {i : Fin threadMaxFd} {task' : Task}
    (heq : openStd s.st (s.tasks t) i = some (st', task')) :
    SameTree s.st st' ∧ ∃ T', (s.setTask t st' task').Inv T' := by
  refine ⟨?_, (h.openStd heq).imp fun _ hnext => hnext.inv⟩
  rw [openStd] at heq
  obtain ⟨⟨st₁, ret, file⟩, hopen, heq⟩ := Option.bind_eq_some_iff.1 heq
  obtain ⟨rfl, -⟩ := Prod.mk.inj (Option.some.inj heq)
  exact vfsOpen_quiet h.tree (h.cwd t) (by decide) (by decide) hopen

theorem openStdFiles_quiet {s : Sys} {T : Set ℕ} (h : s.Inv T) {task' : Task}
    (heq : openStdFiles s.st (s.tasks t) = some (st', task')) : SameTree s.st st' := by
  rw [openStdFiles] at heq
  obtain ⟨⟨st₁, task₁⟩, heq₁, heq⟩ := Option.bind_eq_some_iff.1 heq
  obtain ⟨⟨st₂, task₂⟩, heq₂, heq₃⟩ := Option.bind_eq_some_iff.1 heq
  obtain ⟨hsame₁, T₁, h₁⟩ := openStd_quiet h heq₁
  obtain ⟨hsame₂, T₂, h₂⟩ := openStd_quiet (t := t) h₁ (by rw [Sys.tasks_setTask]; exact heq₂)
  rw [Sys.setTask_setTask] at h₂
  obtain ⟨hsame₃, -⟩ := openStd_quiet (t := t) h₂ (by rw [Sys.tasks_setTask]; exact heq₃)
  exact (hsame₁.trans hsame₂).trans hsame₃

theorem threadCreate_quiet {s : Sys} {T : Set ℕ} (h : s.Inv T) {task : Option Task}
    (heq : threadCreate s.st = some (st', task)) : SameCounts s.st st' T := by
  rcases threadCreate_cases h.tree.heap with ⟨st₁, hfail, hext⟩ | ⟨st₁, bs, hext, hmap⟩
  · rw [hfail] at heq
    rw [← (Prod.mk.inj (Option.some.inj heq)).1]
    exact hext.counts h.tree
  · rw [hmap] at heq
    obtain ⟨⟨st₂, task₂⟩, hfiles, heq⟩ := Option.map_eq_some_iff.1 heq
    obtain ⟨rfl, -⟩ := Prod.mk.inj heq
    have h₁ := h.grows (Grows.extend h.tree hext)
    have hnew : ((Sys.mk st₁ s.tasks).setTask 0 st₁ ⟨st₁.root, fun _ => 0⟩).Inv T :=
      h₁.replace 0 (Or.inr h₁.tree.root) fun _ => rfl
    have hsame := openStdFiles_quiet (t := 0) hnew (by rw [Sys.tasks_setTask]; exact hfiles)
    exact (hext.counts h.tree).trans hsame.counts

theorem sysOpen_quiet {s : Sys} {T : Set ℕ} (h : s.Inv T) {path : UserPath} {flags : BitVec 32}
    {task' : Task} (hcreat : ¬ oCreat flags)
    (heq : sysOpen s.st (s.tasks t) path flags = some (st', task', x)) : SameTree s.st st' := by
  rw [sysOpen] at heq
  split_ifs at heq with hmissing
  · rw [← (Prod.mk.inj (Option.some.inj heq)).1]
    exact ⟨rfl, rfl, rfl, rfl⟩
  cases hfirst : (s.tasks t).firstEmpty with
  | none =>
      rw [hfirst] at heq
      rw [← (Prod.mk.inj (Option.some.inj heq)).1]
      exact ⟨rfl, rfl, rfl, rfl⟩
  | some i =>
      rw [hfirst] at heq
      obtain ⟨⟨st₁, ret, file⟩, hopen, heq⟩ := Option.bind_eq_some_iff.1 heq
      have hst : st₁ = st' := by
        dsimp only at heq
        split_ifs at heq <;> exact (Prod.mk.inj (Option.some.inj heq)).1
      subst hst
      exact vfsOpen_quiet h.tree (h.cwd t) path.nul hcreat hopen

theorem sysWrite_quiet {task : Task} {fd : ℤ} {buf : Option (List UInt8)}
    (heq : sysWrite st task fd buf = some (st', x)) : SameNames st st' := by
  have hsame : ∀ {y : ℤ}, some (st, y) = some (st', x) → SameNames st st' := by
    intro y hst
    rw [← (Prod.mk.inj (Option.some.inj hst)).1]
    exact SameNames.refl st
  rw [sysWrite] at heq
  cases hslot : slot fd with
  | none =>
      rw [hslot] at heq
      exact hsame heq
  | some i =>
      rw [hslot] at heq
      dsimp only at heq
      split_ifs at heq with hbuf h0 hvnode
      · exact hsame heq
      · exact hsame heq
      · cases hops : (st.files (task.fdTable i)).fOps with
        | none =>
            rw [hops] at heq
            exact hsame heq
        | some ops =>
            rw [hops] at heq
            exact write_sameNames heq

theorem tmpfsRead_sameTree (st : State) (file : ℕ) (buf : Bool) (len : ℕ) :
    SameTree st (tmpfsRead st file buf len).1 := by
  simp only [tmpfsRead]
  split_ifs <;> exact ⟨rfl, rfl, rfl, rfl⟩

theorem read_sameTree (ops : FileOps) (st : State) (file : ℕ) (buf : Bool) (len : ℕ) (port : List UInt8) :
    SameTree st (ops.read st file buf len port).1 := by
  cases ops with
  | tmpfs => exact tmpfsRead_sameTree st file buf len
  | initramfs => exact tmpfsRead_sameTree st file buf len
  | uart =>
      change SameTree st (devUartRead st file buf len port).1
      rw [devUartRead]
      split_ifs <;> exact ⟨rfl, rfl, rfl, rfl⟩
  | framebuffer => exact ⟨rfl, rfl, rfl, rfl⟩

theorem sysRead_quiet {task : Task} {fd : ℤ} {buf : Bool} {count : ℕ} {port bytes : List UInt8}
    (heq : sysRead st task fd buf count port = some (st', x, bytes)) : SameTree st st' := by
  rw [sysRead] at heq
  cases hslot : slot fd with
  | none =>
      rw [hslot] at heq
      rw [← (Prod.mk.inj (Option.some.inj heq)).1]
      exact ⟨rfl, rfl, rfl, rfl⟩
  | some i =>
      rw [hslot] at heq
      dsimp only at heq
      split_ifs at heq with h0 hvnode
      · rw [← (Prod.mk.inj (Option.some.inj heq)).1]
        exact ⟨rfl, rfl, rfl, rfl⟩
      · cases hops : (st.files (task.fdTable i)).fOps with
        | none =>
            rw [hops] at heq
            rw [← (Prod.mk.inj (Option.some.inj heq)).1]
            exact ⟨rfl, rfl, rfl, rfl⟩
        | some ops =>
            rw [hops] at heq
            have hsame := read_sameTree ops st (task.fdTable i) buf count port
            rwa [Option.some.inj heq] at hsame

theorem Sys.Quiet.counts (h : s.Inv T) (hq : Sys.Quiet s s') : SameCounts s.st s'.st T := by
  obtain ⟨op, x, hvalid, hcreates, hstep⟩ := hq
  cases op with
  | «open» t path flags =>
      obtain ⟨⟨st', task', x'⟩, hopen, hstep⟩ := Option.bind_eq_some_iff.1 hstep
      rw [← (Prod.mk.inj (Option.some.inj hstep)).1]
      exact (sysOpen_quiet h hcreates hopen).counts
  | close t fd =>
      rw [← (Prod.mk.inj (Option.some.inj hstep)).1]
      change SameCounts s.st (sysClose s.st (s.tasks t) fd).1 T
      rw [sysClose]
      cases slot fd with
      | none => exact (SameNames.refl s.st).counts
      | some i => exact (vfsClose_sameTree s.st _).counts
  | write t fd buf =>
      obtain ⟨⟨st', x'⟩, hwrite, hstep⟩ := Option.bind_eq_some_iff.1 hstep
      rw [← (Prod.mk.inj (Option.some.inj hstep)).1]
      exact (sysWrite_quiet hwrite).counts
  | read t fd buf count port =>
      obtain ⟨⟨st', x', bytes⟩, hread, hstep⟩ := Option.bind_eq_some_iff.1 hstep
      rw [← (Prod.mk.inj (Option.some.inj hstep)).1]
      exact (sysRead_quiet hread).counts
  | lseek t fd offset whence =>
      rw [← (Prod.mk.inj (Option.some.inj hstep)).1]
      change SameCounts s.st (sysLseek64 s.st (s.tasks t) fd offset whence).1 T
      rw [sysLseek64]
      cases slot fd with
      | none => exact (SameNames.refl s.st).counts
      | some i =>
          dsimp only
          rw [vfsLseek64]
          split_ifs with h0
          · exact (SameNames.refl s.st).counts
          cases (s.st.files ((s.tasks t).fdTable i)).fOps with
          | none => exact (SameNames.refl s.st).counts
          | some ops => exact (lseek64_sameTree ops s.st _ offset whence).counts
  | mkdir t path => exact absurd trivial hcreates
  | mknod t path ops => exact absurd trivial hcreates
  | fill t path entries => exact absurd trivial hcreates
  | mount t target filesystem =>
      rw [← (Prod.mk.inj (Option.some.inj hstep)).1]
      change SameCounts s.st (sysMount s.st (s.tasks t) target filesystem).1 T
      rw [sysMount]
      split_ifs with hmissing
      · exact (SameNames.refl s.st).counts
      have hclear : RootClear s.st target.text filesystem.text := hvalid
      rcases vfsMount_cases h.tree (h.cwd t) target.nul hclear with
        ⟨st', r, heq, -, hext⟩ | ⟨st', v, m, r, n, fs, ops, heq, -, -, hres, -, -, -, hm⟩
      · simp only [heq]
        exact hext.counts h.tree
      · simp only [heq]
        have hf := hm.frame h.tree (h.tree.resolvePath_mem (h.cwd t) hres)
        exact fun w hw => congrArg Node.numChildren (hf.internal w hw)
  | chdir t path =>
      rw [← (Prod.mk.inj (Option.some.inj hstep)).1]
      change SameCounts s.st (sysChdir s.st (s.tasks t) path).1 T
      rw [sysChdir]
      split_ifs with hmissing
      · exact (SameNames.refl s.st).counts
      · exact (vfsLookup_sameTree path.nul s.st _ .cwd).counts
  | start t =>
      obtain ⟨⟨st', task⟩, hcreate, hstep⟩ := Option.bind_eq_some_iff.1 hstep
      have hcounts := threadCreate_quiet h hcreate
      cases task with
      | none =>
          rw [← (Prod.mk.inj (Option.some.inj hstep)).1]
          exact hcounts
      | some task =>
          rw [← (Prod.mk.inj (Option.some.inj hstep)).1]
          exact hcounts
  | fork t held =>
      obtain ⟨st₁, bs, hext, rfl | rfl⟩ := Sys.fork_cases h.tree.heap hstep <;> exact hext.counts h.tree
  | reap t th =>
      rw [← (Prod.mk.inj (Option.some.inj hstep)).1]
      exact fun _ _ => rfl
  | register name ops =>
      obtain ⟨st', hreg, hstep⟩ := Option.bind_eq_some_iff.1 hstep
      rw [← (Prod.mk.inj (Option.some.inj hstep)).1]
      exact (registerBackend_keeps h.tree.heap hreg).1.counts

def State.rootOn (st : State) (v : ℕ) : ℕ := (st.mounts (st.vnodes v).mount).root

/-- An empty directory covers `v`: a lookup of one component below it does not find anything. -/
structure EmptyBelow (st : State) (v : ℕ) : Prop where
  directory : (st.internal (st.rootOn v)).type = .directory
  childless : (st.internal (st.rootOn v)).numChildren = 0
  enters : ∀ w, w = v ∨ w = st.rootOn v → ∀ name, Plain name → Gives st w name (.error enoent)
  goesOn : ∀ w, w = v ∨ w = st.rootOn v → ∀ cwd path name, (0 : UInt8) ∉ path → path ≠ [] →
    resolvePath st cwd path = .ok w → Plain name → Gives st cwd (path ++ slash :: name) (.error enoent)

structure FreshRoot (s : Sys) (T : Set ℕ) (v r : ℕ) : Prop where
  whole : s.Whole T
  on : Hierarchy.On s.st T v r
  mem : r ∈ T
  directory : (s.st.internal r).type = .directory
  childless : (s.st.internal r).numChildren = 0

namespace FreshRoot

theorem cross_eq (h : FreshRoot s T v r) {w : ℕ} (hw : w = v ∨ w = r) : w ∈ T ∧ cross s.st w = r := by
  rcases hw with rfl | rfl
  · exact ⟨h.on.mem, (if_pos h.on.mount).trans h.on.root⟩
  · exact ⟨h.mem, if_neg (not_not.2 (h.on.root_mount h.whole.hierarchy).2.1)⟩

theorem emptyBelow (h : FreshRoot s T v r) : EmptyBelow s.st v := by
  have hroot : s.st.rootOn v = r := h.on.root
  have hfind : ∀ name, findChild s.st (s.st.internal r) name = none := by
    intro name
    rw [findChild, h.childless]
    rfl
  refine ⟨?_, ?_, ?_, ?_⟩ <;> rw [hroot]
  · exact h.directory
  · exact h.childless
  · intro w hw name hname
    obtain ⟨hin, hcross⟩ := h.cross_eq hw
    refine gives_of_resolvePath hname.nul ?_
    exact resolvePath_missing h.whole.inv.tree hin hcross h.directory hname (hfind name)
  · intro w hw cwd path name hnul hpath hres hname
    obtain ⟨hin, hcross⟩ := h.cross_eq hw
    exact gives_missing h.whole.inv.tree hin hcross h.directory hname hnul hpath hres (hfind name)

theorem step (h : FreshRoot s T v r) (hq : Sys.Quiet s s') : ∃ T', FreshRoot s' T' v r := by
  have hcounts := hq.counts h.whole.inv
  obtain ⟨op, x, hvalid, -, hstep⟩ := hq
  obtain ⟨T', hn⟩ := Sys.next_step h.whole.inv ⟨op, x, hvalid, hstep⟩
  obtain ⟨hmount, hroot⟩ := hn.mounts.mount v h.on.mem h.on.mount
  refine ⟨T', h.whole.next hn, ⟨hn.subset h.on.mem, ?_, ?_, ?_⟩, hn.subset h.mem, ?_, ?_⟩
  · rw [hmount]
    exact h.on.mount
  · rw [hmount, hroot, h.on.root]
  · rw [(hn.mounts.parent r h.mem).1, h.on.parent]
  · exact hn.mounts.directory r h.mem h.directory
  · rw [hcounts r h.mem, h.childless]

theorem run (h : FreshRoot s T v r) (hrun : ReflTransGen Sys.Quiet s s') :
    ∃ T', FreshRoot s' T' v r := by
  induction hrun with
  | refl => exact ⟨T, h⟩
  | tail _ hq ih =>
      obtain ⟨T₁, h₁⟩ := ih
      exact h₁.step hq

end FreshRoot

/-- The block that an initramfs gets for its root holds a directory without children in `old`. -/
def HeldEmpty (st old : State) (path name : List UInt8) : Prop :=
  ∀ f ∈ findFilesystem st name, (st.fsTable f).setupMount = some .initramfs →
    (old.nodes (mountNode st path)).type = .directory ∧
      (old.nodes (mountNode st path)).numChildren = 0

def StaysEmpty (s : Sys) (v : ℕ) : Prop := ∀ s', ReflTransGen Sys.Quiet s s' → EmptyBelow s'.st v

/-- A mount whose root is a directory starts out fresh. -/
theorem Mounted.freshRoot (hw : s.Whole T) (hv : v ∈ T) (hmount : (s.st.vnodes v).mount = 0)
    (hplain : (s.st.vnodes v).parentIsMount = false) (hm0 : m ≠ 0) {ops : VnodeOps}
    (hm : Mounted s.st st' v m r n fs ops) (hdir : (st'.internal r).type = .directory) :
    FreshRoot ⟨st', s.tasks⟩ (insert r T) v r := by
  have hroot : v ≠ s.st.root := by
    rintro rfl
    rw [hw.inv.tree.rootMount.2] at hplain
    cases hplain
  have hf := hm.frame hw.inv.tree hv
  have hself : (st'.vnodes v).mount = m := by rw [hf.self]
  refine ⟨hw.next (hw.inv.next (hm.grows hw.inv.tree hv hroot hmount hplain)), ⟨?_, ?_, ?_, ?_⟩,
    Set.mem_insert r T, hdir, hf.empty⟩
  · exact Set.mem_insert_of_mem r hv
  · exact hself.trans_ne hm0
  · change (st'.mounts (st'.vnodes v).mount).root = r
    rw [hself, hf.mountRoot]
  · exact hf.new.2.1

/-- A successful mount stays empty if and only if the root of an initramfs has come from the block of an
empty directory. -/
theorem mount_staysEmpty_iff (hw : s.Whole T) (hcwd : cwd = 0 ∨ cwd ∈ T) (hnul : (0 : UInt8) ∉ path)
    (hres : resolvePath s.st cwd path = .ok v)
    (h0 : vfsMount s.st cwd (some path) (some name) = (st', 0)) :
    StaysEmpty ⟨st', s.tasks⟩ v ↔ HeldEmpty s.st s.st path name := by
  have h := hw.inv.tree
  obtain ⟨f, ops, w, hfind, hops, hv, hres', hmount, hplain, hroom, hx, hst⟩ :=
    vfsMount_zero h hcwd hnul h0
  obtain rfl := Except.ok.inj (hres'.symm.trans hres)
  obtain ⟨he, hm⟩ := linkedState_extends h hv path f hroom
  have hf0 : f ≠ 0 := (h.heap.start_pos _ (h.fs f (List.mem_of_find?_eq_some hfind)).1).ne'
  have hm0 : (linkedState s.st path w f).2 ≠ 0 := hroom
  cases ops with
  | tmpfs =>
      refine iff_of_true ?_ fun g hg hgops => ?_
      · rcases tmpfsSetupMount_cases he hm hf0 hm0 with ⟨st₁, heq, -⟩ | ⟨st₁, r, n, heq, hset⟩
        · change (tmpfsSetupMount _ f _).2 = 0 at hx
          rw [heq] at hx
          exact absurd hx (by decide : enomem ≠ 0)
        change st' = (tmpfsSetupMount _ f _).1.setVnode ((tmpfsSetupMount _ f _).1.mounts _).root _ at hst
        rw [heq, hset.mount] at hst
        have hmounted : Mounted s.st st' w (linkedState s.st path w f).2 r n f .tmpfs := ⟨st₁, hset, hst⟩
        have hdir : (st'.internal r).type = .directory := by
          rw [hst, State.internal, State.vnodes_setVnode_self]
          change (st₁.nodes (st₁.vnodes r).internal).type = _
          rw [hset.vnode.2.2.2.1]
          exact hset.directory rfl
        intro s' hrun
        obtain ⟨T', hfresh⟩ := (hmounted.freshRoot hw hv hmount hplain hm0 hdir).run hrun
        exact hfresh.emptyBelow
      · obtain rfl := Option.some.inj (hfind.symm.trans hg)
        rw [hops] at hgops
        cases hgops
  | initramfs =>
      obtain ⟨r, bs, hroot, hrfresh, hext, hint, hset⟩ := initramfsSetupMount_zero he hm hf0 hm0 hx
      change st' = (initramfsSetupMount _ f _).1.setVnode ((initramfsSetupMount _ f _).1.mounts _).root _ at hst
      rw [hroot] at hst
      have hheld : (linkedState s.st path w f).1.nodes ((linkedState s.st path w f).1.alloc sizeofNode).2 =
          s.st.nodes (mountNode s.st path) := rfl
      rw [hheld] at hint hset
      have hr : st'.internal r = s.st.nodes (mountNode s.st path) := by
        rw [← hint, hst, State.internal, State.vnodes_setVnode_self]
        rfl
      have hon : st'.rootOn w = r := by
        have hrw : w ≠ r := fun heq => hrfresh _ (h.vnode w hv) heq
        rw [State.rootOn, hst, State.vnodes_setVnode_of_ne _ _ hrw, hext.vnode _ (h.vnode w hv),
          State.vnodes_setVnode_self]
        exact hroot
      constructor
      · intro hlaw g hg _
        obtain ⟨hdir, hempty, -⟩ := hlaw _ ReflTransGen.refl
        change (st'.internal (st'.rootOn w)).type = _ at hdir
        change (st'.internal (st'.rootOn w)).numChildren = 0 at hempty
        rw [hon, hr] at hdir hempty
        exact ⟨hdir, hempty⟩
      · intro hheld s' hrun
        obtain ⟨hdir, hempty⟩ := hheld f hfind hops
        have hmounted : Mounted s.st st' w (linkedState s.st path w f).2 r _ f .initramfs :=
          ⟨_, hset hempty, hst⟩
        obtain ⟨T', hfresh⟩ :=
          (hmounted.freshRoot hw hv hmount hplain hm0 (by rw [hr]; exact hdir)).run hrun
        exact hfresh.emptyBelow

theorem Sys.Whole.recycled (hw : s.Whole T) (old : State) :
    Sys.Whole ⟨s.st.recycled old, s.tasks⟩ T :=
  hw.next (hw.inv.next (State.recycled_grows hw.inv.tree old))

theorem heldEmpty_recycled (hok : s.st.heap.Ok) (old : State) (path name : List UInt8) :
    HeldEmpty (s.st.recycled old) (s.st.recycled old) path name ↔ HeldEmpty s.st old path name := by
  unfold HeldEmpty
  rw [mountNode_recycled, recycled_node hok]
  rfl

/-- Two mounts with other old contents: both stay empty, and the lookups below them have the same results. -/
structure FreshLaw (s₁ s₂ : Sys) (v : ℕ) : Prop where
  left : StaysEmpty s₁ v
  right : StaysEmpty s₂ v
  same : ∀ s₁' s₂', ReflTransGen Sys.Quiet s₁ s₁' → ReflTransGen Sys.Quiet s₂ s₂' → ∀ name, Plain name →
    CopyOk s₁'.st name → CopyOk s₂'.st name →
      (lookupPath s₁'.st (s₁'.st.rootOn v) name).2.1 = (lookupPath s₂'.st (s₂'.st.rootOn v) name).2.1

theorem freshLaw_iff : FreshLaw s₁ s₂ v ↔ StaysEmpty s₁ v ∧ StaysEmpty s₂ v := by
  refine ⟨fun h => ⟨h.left, h.right⟩, fun ⟨h₁, h₂⟩ => ⟨h₁, h₂, ?_⟩⟩
  intro s₁' s₂' hrun₁ hrun₂ name hname hcopy₁ hcopy₂
  rw [((h₁ s₁' hrun₁).enters _ (Or.inr rfl) name hname hcopy₁).1,
    ((h₂ s₂' hrun₂).enters _ (Or.inr rfl) name hname hcopy₂).1]

/-- In every state and for all old contents of the blocks that are not in use, a mount that succeeds is
empty and does not depend on these contents, if and only if the root of an initramfs has come from the block
of an empty directory. -/
theorem fresh_mount_empty_iff (hs : s.Reachable) (t : ℕ) (hnul : (0 : UInt8) ∉ path)
    (hv : resolvePath s.st (s.tasks t).cwd path = .ok v) {old₁ old₂ st₁ st₂ : State}
    (h₁ : vfsMount (s.st.recycled old₁) (s.tasks t).cwd (some path) (some name) = (st₁, 0))
    (h₂ : vfsMount (s.st.recycled old₂) (s.tasks t).cwd (some path) (some name) = (st₂, 0)) :
    FreshLaw ⟨st₁, s.tasks⟩ ⟨st₂, s.tasks⟩ v ↔
      HeldEmpty s.st old₁ path name ∧ HeldEmpty s.st old₂ path name := by
  obtain ⟨T, hw⟩ := hs.whole
  have h := hw.inv.tree
  have hcwd := hw.inv.cwd t
  have hresolve : ∀ old, resolvePath (s.st.recycled old) (s.tasks t).cwd path = .ok v := fun old =>
    (State.recycled_places h old).resolvePath h (State.recycled_grows h old).tree Set.Subset.rfl hcwd hv
  have hiff₁ := mount_staysEmpty_iff (hw.recycled old₁) hcwd hnul (hresolve old₁) h₁
  have hiff₂ := mount_staysEmpty_iff (hw.recycled old₂) hcwd hnul (hresolve old₂) h₂
  rw [freshLaw_iff, hiff₁, hiff₂, heldEmpty_recycled h.heap, heldEmpty_recycled h.heap]

def State.littered : State :=
  { State.blank with nodes := fun _ => ⟨[], .directory, 0, 0, 0, 0, fun _ => 0, 1⟩ }

def nodeA (s : Sys) : ℕ := (lookupPath s.st (s.tasks 0).cwd [47, 97]).2.2

theorem nodeA_resolves (s : Sys) (h : (lookupPath s.st (s.tasks 0).cwd [47, 97]).2.1 = 0) :
    resolvePath s.st (s.tasks 0).cwd [47, 97] = .ok (nodeA s) :=
  ((lookupFinds_iff (by decide)).1 (Prod.ext h rfl)).2

/-- A tmpfs on `/a`. -/
theorem fresh_mount_empty_tmpfs :
    FreshLaw ⟨(vfsMount (Sys.withDir.st.recycled State.blank) (Sys.withDir.tasks 0).cwd (some [47, 97])
        (some tmpfsName)).1, Sys.withDir.tasks⟩
      ⟨(vfsMount (Sys.withDir.st.recycled State.littered) (Sys.withDir.tasks 0).cwd (some [47, 97])
        (some tmpfsName)).1, Sys.withDir.tasks⟩ (nodeA Sys.withDir) ↔
      HeldEmpty Sys.withDir.st State.blank [47, 97] tmpfsName ∧
        HeldEmpty Sys.withDir.st State.littered [47, 97] tmpfsName :=
  fresh_mount_empty_iff Sys.withDir_reachable 0 (by decide)
    (nodeA_resolves Sys.withDir (by decide)) (Prod.ext rfl (by decide))
    (Prod.ext rfl (by decide))

theorem Sys.withDir_registers : (Sys.withDir.step .registerInitramfs).isSome := by decide

def Sys.withInitramfs : Sys := Sys.withDir.after .registerInitramfs Sys.withDir_registers

theorem Sys.withInitramfs_reachable : Sys.withInitramfs.Reachable :=
  Sys.withDir_reachable.after .registerInitramfs trivial Sys.withDir_registers

/-- An initramfs on `/a` in clear memory: the mount succeeds, and its root is not a directory. -/
theorem initramfs_root_not_directory :
    Sys.withInitramfs.Reachable ∧
      (vfsMount (Sys.withInitramfs.st.recycled State.blank) (Sys.withInitramfs.tasks 0).cwd (some [47, 97])
        (some initramfsName)).2 = 0 ∧
      ¬ EmptyBelow (vfsMount (Sys.withInitramfs.st.recycled State.blank) (Sys.withInitramfs.tasks 0).cwd
        (some [47, 97]) (some initramfsName)).1 (nodeA Sys.withInitramfs) := by
  refine ⟨Sys.withInitramfs_reachable, by decide, fun h => absurd h.directory ?_⟩
  decide

end OscKernel.Vfs
