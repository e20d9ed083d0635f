import OscKernel.VfsGrowth

/-!
# Opening and creating

`vfs_open` and `vfs_mkdir` cut the path at its last slash, look the first part up and create in the
directory that they find. Every call fails without an effect, or opens a vnode of the tree, or makes a
new one.
-/

namespace OscKernel.Vfs

variable {st st₁ st₂ st' : State} {T : Set ℕ} {v w cwd dir copy k vnode : ℕ} {path name : List UInt8}
  {bs cs : List (ℕ × ℕ)} {type : NodeType} {flags : BitVec 32}

def parentPath (path : List UInt8) : Option (List UInt8) :=
  match lastSlash path path.length with
  | none => none
  | some 0 => some [slash]
  | some (i + 1) => some (path.take (i + 1))

def resolveParent (st : State) (cwd : ℕ) (path : List UInt8) : Except ℤ ℕ :=
  match parentPath path with
  | none => .ok cwd
  | some p => resolvePath st cwd p

/-- The last component of the path, as a creation takes it. -/
def newName (path : List UInt8) : List UInt8 := baseName path (lastSlash path path.length)

def ParentCopyOk (st : State) (path : List UInt8) : Prop := ∀ p ∈ parentPath path, CopyOk st p

def afterParent (st : State) (path : List UInt8) : State :=
  match parentPath path with
  | none => st
  | some p => afterLookup st p

theorem lookupParent_eq (st : State) (cwd : ℕ) (path : List UInt8) :
    lookupParent st cwd path (lastSlash path path.length) =
      match parentPath path with
      | none => (st, 0, cwd)
      | some p => lookupPath st cwd p := by
  rw [parentPath]
  rcases lastSlash path path.length with _ | _ | i <;> rfl

theorem parentPath_nul (hnul : (0 : UInt8) ∉ path) {p : List UInt8} (hp : parentPath path = some p) :
    (0 : UInt8) ∉ p := by
  rw [parentPath] at hp
  rcases hlast : lastSlash path path.length with _ | _ | i <;> rw [hlast] at hp
  · cases hp
  · rw [← Option.some.inj hp]
    decide
  · rw [← Option.some.inj hp]
    exact fun h => hnul (List.mem_of_mem_take h)

theorem afterParent_extends (hok : st.heap.Ok) (hcopy : ParentCopyOk st path) :
    Extends st (afterParent st path) [] ∧ SameTree st (afterParent st path) := by
  rw [afterParent]
  cases hp : parentPath path with
  | none => exact ⟨Extends.refl hok, rfl, rfl, rfl, rfl⟩
  | some p => exact ⟨afterLookup_extends hok (hcopy p hp), rfl, rfl, rfl, rfl⟩

theorem lookupParent_ok (hnul : (0 : UInt8) ∉ path) (hcopy : ParentCopyOk st path)
    (hdir : resolveParent st cwd path = .ok dir) :
    lookupParent st cwd path (lastSlash path path.length) = (afterParent st path, 0, dir) := by
  rw [lookupParent_eq, afterParent]
  rw [resolveParent] at hdir
  cases hp : parentPath path with
  | none =>
      rw [hp] at hdir
      rw [Except.ok.inj hdir]
  | some p =>
      rw [hp] at hdir
      change resolvePath st cwd p = .ok dir at hdir
      change lookupPath st cwd p = (afterLookup st p, 0, dir)
      rw [lookupPath_spec (parentPath_nul hnul hp) (hcopy p hp), hdir, leftoverPath_of_ok hdir]
      rfl

theorem lookupParent_fails (hok : st.heap.Ok) (hnul : (0 : UInt8) ∉ path)
    (hfail : ¬ (ParentCopyOk st path ∧ ∃ dir, resolveParent st cwd path = .ok dir)) :
    ∃ st' r v, lookupParent st cwd path (lastSlash path path.length) = (st', r, v) ∧ r < 0 ∧
      Extends st st' [] ∧ SameTree st st' := by
  rw [lookupParent_eq]
  cases hp : parentPath path with
  | none =>
      refine absurd ⟨fun p hp' => ?_, cwd, ?_⟩ hfail
      · rw [hp] at hp'
        cases hp'
      · rw [resolveParent, hp]
  | some p =>
      have hnul' := parentPath_nul hnul hp
      have hext := lookupPath_extends hok hnul' cwd
      by_cases hcopy : CopyOk st p
      · have hspec := lookupPath_spec hnul' hcopy cwd
        rw [hspec] at hext
        refine ⟨_, _, _, hspec, ?_, hext⟩
        cases hr : resolvePath st cwd p with
        | error c => exact resolvePath_error hr
        | ok dir =>
            refine absurd ⟨fun p' hp' => ?_, dir, ?_⟩ hfail
            · rw [hp] at hp'
              rwa [← Option.some.inj hp']
            · rw [resolveParent, hp]
              exact hr
      · have hspec := lookupPath_no_copy hcopy cwd
        rw [hspec] at hext
        exact ⟨_, _, _, hspec, by decide, hext⟩

theorem SameTree.resolveParent (h : SameTree st st') : resolveParent st' = resolveParent st := by
  funext cwd path
  simp only [Vfs.resolveParent, h.resolvePath]

theorem SameTree.trans (h₁ : SameTree st st₁) (h₂ : SameTree st₁ st₂) : SameTree st st₂ where
  vnodes := h₂.vnodes.trans h₁.vnodes
  nodes := h₂.nodes.trans h₁.nodes
  mounts := h₂.mounts.trans h₁.mounts
  rootfs := h₂.rootfs.trans h₁.rootfs

theorem SameTree.internal (h : SameTree st st') (v : ℕ) : st'.internal v = st.internal v := by
  rw [State.internal, State.internal, h.vnodes, h.nodes]

structure Reaches (st : State) (cwd : ℕ) (path : List UInt8) (dir : ℕ) : Prop where
  copy : CopyOk st path
  parentCopy : ParentCopyOk (strdup st path).1 path
  parent : resolveParent st cwd path = .ok dir

def beforeCreate (st : State) (path : List UInt8) : State := afterParent (strdup st path).1 path

theorem Reaches.extends (h : Reaches st cwd path dir) (hok : st.heap.Ok) :
    Extends st (beforeCreate st path) [((strdup st path).2, (path.length + 1) % 2 ^ 32)] ∧
      SameTree st (beforeCreate st path) ∧ Extends.Fresh st (strdup st path).2 := by
  rcases State.alloc_extends hok (path.length + 1) with
    ⟨st', heq, -⟩ | ⟨st', p, heq, -, hfresh, hext, -⟩
  · exact absurd (congrArg Prod.snd heq) h.copy
  · have hcopy := h.parentCopy
    have hsame := sameTree_strdup st path
    rw [strdup, heq] at hcopy hsame
    obtain ⟨hext₂, hsame₂⟩ := afterParent_extends hext.ok hcopy
    rw [beforeCreate, strdup, heq]
    exact ⟨hext.trans hext₂, hsame.trans hsame₂, hfresh⟩

/-- The copy of the path comes and goes around a creation. -/
theorem Created.free_copy (hext : Extends st st₁ [(copy, k)]) (hsame : SameTree st st₁)
    (hfresh : Extends.Fresh st copy) (hc : Created st₁ st₂ dir v name type) :
    Created st (st₂.free copy) dir v name type := by
  obtain ⟨hv0, st₃, n, data, hn0, rfl, hext₃, hvnode, hnode⟩ := hc
  rw [hsame.vnodes] at hvnode hnode ⊢
  refine ⟨hv0, st₃.free copy, n, data, hn0, rfl, ?_, hvnode, hnode⟩
  refine (hext.trans hext₃).free_last (fun b hb => ?_) hfresh
  have hcopy : (copy, k) ∈ st₁.heap.live := by
    rw [hext.live]
    exact List.mem_cons_self ..
  exact fun heq => hext₃.fresh (p := b.1) (n := b.2) hb _ hcopy heq.symm

theorem CanCreate.congr (hsame : SameTree st st') (h : CanCreate st dir name) :
    CanCreate st' dir name := by
  obtain ⟨hp, mem, vnodes, nodes, mounts, files, fsTable, filesystems, rootfs⟩ := st'
  obtain ⟨rfl, rfl, rfl, rfl⟩ := hsame
  exact ⟨h.vnode, h.node, h.named, h.directory, h.short, h.absent, h.room⟩

theorem SameTree.symm (h : SameTree st st') : SameTree st' st :=
  ⟨h.vnodes.symm, h.nodes.symm, h.mounts.symm, h.rootfs.symm⟩

/-- The call of the backend ends without an effect, or makes a vnode. -/
theorem create_cases (hok : st.heap.Ok) (ops : VnodeOps) (vnode : ℕ) (name : List UInt8) :
    (∃ st' r v, ops.create st dir vnode name = (st', r, v) ∧ r < 0 ∧ Extends st st' [] ∧
      (v = 0 ∨ v = vnode)) ∨
      ∃ st' v, ops = .tmpfs ∧ ops.create st dir vnode name = (st', 0, v) ∧ CanCreate st dir name ∧
        Created st st' dir v name .file := by
  cases ops with
  | initramfs =>
      exact Or.inl ⟨st, eacces, vnode, rfl, by decide, Extends.refl hok, Or.inr rfl⟩
  | tmpfs =>
      by_cases hcan : CanCreate st dir name
      · rcases tmpfsCreateOrMkdir_cases hok hcan vnode .file with ⟨st', heq, hext⟩ | ⟨st', v, heq, hc⟩
        · exact Or.inl ⟨st', enomem, 0, heq, by decide, hext, Or.inl rfl⟩
        · exact Or.inr ⟨st', v, rfl, heq, hcan, hc⟩
      · obtain ⟨r, v, heq, hr, hv⟩ := tmpfsCreateOrMkdir_refused hcan vnode .file
        exact Or.inl ⟨st, r, v, heq, hr, Extends.refl hok, hv.imp_right And.left⟩

/-- The allocations of a creation of a file succeed. -/
def RoomToCreate (st : State) : Prop :=
  (st.alloc sizeofNode).2 ≠ 0 ∧ ((st.alloc sizeofNode).1.alloc defaultFileSize).2 ≠ 0 ∧
    (((st.alloc sizeofNode).1.alloc defaultFileSize).1.alloc sizeofVnode).2 ≠ 0

def Accepts (st : State) (dir : ℕ) (name : List UInt8) : Prop :=
  (st.vnodes dir).vOps = some .tmpfs ∧ CanCreate st dir name ∧ RoomToCreate st

theorem alloc_setNode (st : State) (n : ℕ) (f : Node → Node) (k : ℕ) :
    (st.setNode n f).alloc k = ((st.alloc k).1.setNode n f, (st.alloc k).2) := rfl

theorem tmpfsCreate_room (hcan : CanCreate st dir name) (hroom : RoomToCreate st) (target : ℕ) :
    (tmpfsCreate st dir target name).2.1 = 0 ∧
      (tmpfsCreate st dir target name).1.heap =
        (((st.alloc sizeofNode).1.alloc defaultFileSize).1.alloc sizeofVnode).1.heap := by
  have hnull : ¬ (dir = 0 ∨ (st.vnodes dir).internal = 0 ∨ name = []) := by
    rintro (h | h | h)
    · exact hcan.vnode h
    · exact hcan.node h
    · exact hcan.named h
  have habsent : ¬ (findChild st (st.internal dir) name).isSome := by simp [hcan.absent]
  rw [RoomToCreate] at hroom
  rcases h₁ : st.alloc sizeofNode with ⟨st₁, n⟩
  rw [h₁] at hroom
  rcases h₂ : st₁.alloc defaultFileSize with ⟨st₂, data⟩
  rw [h₂] at hroom
  rcases h₃ : st₂.alloc sizeofVnode with ⟨st₃, v⟩
  rw [h₃] at hroom
  obtain ⟨hn, hdata, hv⟩ : n ≠ 0 ∧ data ≠ 0 ∧ v ≠ 0 := hroom
  simp only [tmpfsCreate, tmpfsCreateOrMkdir, if_neg hnull, if_neg (not_not.2 hcan.directory),
    if_neg (not_le.2 hcan.short), if_neg habsent, if_neg (not_le.2 hcan.room), tmpfsCreateInternalNode,
    h₁, if_neg hn, if_true, alloc_setNode, h₂, if_neg hdata, h₃, if_neg hv]
  exact ⟨trivial, rfl⟩

theorem mkdir_cases (hok : st.heap.Ok) (ops : VnodeOps) (name : List UInt8) :
    (∃ st' r v, ops.mkdir st dir 0 name = (st', r, v) ∧ r < 0 ∧ Extends st st' []) ∨
      ∃ st' v, ops = .tmpfs ∧ ops.mkdir st dir 0 name = (st', 0, v) ∧ CanCreate st dir name ∧
        Created st st' dir v name .directory := by
  cases ops with
  | initramfs => exact Or.inl ⟨st, eacces, 0, rfl, by decide, Extends.refl hok⟩
  | tmpfs =>
      by_cases hcan : CanCreate st dir name
      · rcases tmpfsCreateOrMkdir_cases hok hcan 0 .directory with ⟨st', heq, hext⟩ | ⟨st', v, heq, hc⟩
        · exact Or.inl ⟨st', enomem, 0, heq, by decide, hext⟩
        · exact Or.inr ⟨st', v, rfl, heq, hcan, hc⟩
      · obtain ⟨r, v, heq, hr, -⟩ := tmpfsCreateOrMkdir_refused hcan 0 .directory
        exact Or.inl ⟨st, r, v, heq, hr, Extends.refl hok⟩

theorem resolveParent_mem (h : Tree st T) (hcwd : cwd = 0 ∨ cwd ∈ T)
    (hdir : resolveParent st cwd path = .ok dir) : dir = 0 ∨ dir ∈ T := by
  rw [resolveParent] at hdir
  cases hp : parentPath path with
  | none =>
      rw [hp] at hdir
      exact Except.ok.inj hdir ▸ hcwd
  | some p =>
      rw [hp] at hdir
      exact Or.inr (h.resolvePath_mem hcwd hdir)

/-- The directory that `vfs_open` takes for a path without a slash when there is no `cwd`. -/
def openCwd (st : State) (cwd : ℕ) (path : List UInt8) : ℕ :=
  if lastSlash path path.length = none ∧ cwd = 0 then st.root else cwd

theorem openCwd_mem (h : Tree st T) (hcwd : cwd = 0 ∨ cwd ∈ T) (path : List UInt8) :
    openCwd st cwd path = 0 ∨ openCwd st cwd path ∈ T := by
  rw [openCwd]
  split_ifs
  · exact Or.inr h.root
  · exact hcwd

/-- The part of `vfs_open` that creates, when it comes to the backend. -/
theorem vfsOpenCreate_reaches (hnul : (0 : UInt8) ∉ path) {ops : VnodeOps}
    (hreach : Reaches st (openCwd st cwd path) path dir) (hdir : dir ≠ 0)
    (hops : (st.vnodes dir).vOps = some ops) (vnode : ℕ) :
    vfsOpenCreate st cwd path vnode =
      ((ops.create (beforeCreate st path) dir vnode (newName path)).1.free (strdup st path).2,
        .inr (ops.create (beforeCreate st path) dir vnode (newName path)).2.2) := by
  have hcopy : ¬ (strdup st path).2 = 0 := hreach.copy
  have hsame := sameTree_strdup st path
  have hstart : (if lastSlash path path.length = none ∧ cwd = 0 then (strdup st path).1.root else cwd) =
      openCwd st cwd path := rfl
  have hparent := lookupParent_ok hnul hreach.parentCopy (hsame.resolveParent ▸ hreach.parent)
  have hvops : ((beforeCreate st path).vnodes dir).vOps = some ops := by
    rw [beforeCreate, afterParent]
    cases parentPath path <;> exact hops
  simp only [vfsOpenCreate, if_neg hcopy, hstart, hparent, if_neg (not_not.2 rfl), if_neg hdir]
  rw [← beforeCreate]
  simp only [hvops]
  rfl

/-- The copy of the path is freed again. -/
theorem strdup_free (hok : st.heap.Ok) (hcopy : CopyOk st path)
    (h : Extends (strdup st path).1 st' [] ∧ SameTree (strdup st path).1 st') :
    Extends st (st'.free (strdup st path).2) [] ∧ SameTree st (st'.free (strdup st path).2) := by
  obtain ⟨hext, hsame⟩ := h
  refine ⟨?_, (sameTree_strdup st path).trans ⟨hsame.vnodes, hsame.nodes, hsame.mounts, hsame.rootfs⟩⟩
  rcases State.alloc_extends hok (path.length + 1) with
    ⟨st₁, heq, -⟩ | ⟨st₁, p, heq, -, hfresh, hext₁, -⟩
  · exact absurd (congrArg Prod.snd heq) hcopy
  · rw [strdup, heq] at hext ⊢
    exact (hext₁.trans hext).free (fun _ hb => absurd hb List.not_mem_nil) hfresh

/-- Otherwise it fails. -/
theorem vfsOpenCreate_fails (hok : st.heap.Ok) (hnul : (0 : UInt8) ∉ path)
    (hfail : ∀ dir, Reaches st (openCwd st cwd path) path dir → dir = 0 ∨ (st.vnodes dir).vOps = none)
    (vnode : ℕ) :
    ∃ st' r, vfsOpenCreate st cwd path vnode = (st', .inl r) ∧ r < 0 ∧ Extends st st' [] ∧
      SameTree st st' := by
  by_cases hcopy : CopyOk st path
  swap
  · have hzero : (strdup st path).2 = 0 := not_not.1 hcopy
    refine ⟨(strdup st path).1, enomem, ?_, by decide, ⟨strdup_extends hok hcopy, sameTree_strdup st path⟩⟩
    simp only [vfsOpenCreate, if_pos hzero]
  have hcopy' : ¬ (strdup st path).2 = 0 := hcopy
  have hsame := sameTree_strdup st path
  have hok' : (strdup st path).1.heap.Ok := hok.alloc _
  have hstart : (if lastSlash path path.length = none ∧ cwd = 0 then (strdup st path).1.root else cwd) =
      openCwd st cwd path := rfl
  by_cases hparent : ParentCopyOk (strdup st path).1 path ∧
      ∃ dir, resolveParent (strdup st path).1 (openCwd st cwd path) path = .ok dir
  swap
  · obtain ⟨st', r, v, heq, hr, hext⟩ := lookupParent_fails hok' hnul hparent
    refine ⟨st'.free (strdup st path).2, r, ?_, hr, strdup_free hok hcopy hext⟩
    simp only [vfsOpenCreate, if_neg hcopy', hstart, heq, if_pos hr.ne]
  obtain ⟨hpcopy, dir, hdir⟩ := hparent
  have heq := lookupParent_ok hnul hpcopy hdir
  have hext := strdup_free hok hcopy (afterParent_extends hok' hpcopy)
  rw [hsame.resolveParent] at hdir
  refine ⟨_, eacces, ?_, by decide, hext⟩
  rcases hfail dir ⟨hcopy, hpcopy, hdir⟩ with rfl | hops
  · simp only [vfsOpenCreate, if_neg hcopy', hstart, heq, if_neg (not_not.2 rfl), if_true]
  · by_cases hdir0 : dir = 0
    · subst hdir0
      simp only [vfsOpenCreate, if_neg hcopy', hstart, heq, if_neg (not_not.2 rfl), if_true]
    have hvops : ((afterParent (strdup st path).1 path).vnodes dir).vOps = none := by
      rw [afterParent]
      cases parentPath path <;> exact hops
    simp only [vfsOpenCreate, if_neg hcopy', hstart, heq, if_neg (not_not.2 rfl), if_neg hdir0, hvops]

/-- The part of `vfs_open` that creates: it fails, or it is refused by the backend and forgets that, or
it makes a vnode. -/
theorem vfsOpenCreate_cases (h : Tree st T) (hcwd : cwd = 0 ∨ cwd ∈ T) (hnul : (0 : UInt8) ∉ path)
    (vnode : ℕ) :
    (∃ st' r, vfsOpenCreate st cwd path vnode = (st', .inl r) ∧ r < 0 ∧ Extends st st' []) ∨
      (∃ st' v, vfsOpenCreate st cwd path vnode = (st', .inr v) ∧ Extends st st' [] ∧
        (v = 0 ∨ v = vnode)) ∨
      ∃ st' dir v, vfsOpenCreate st cwd path vnode = (st', .inr v) ∧ dir ∈ T ∧
        Reaches st (openCwd st cwd path) path dir ∧ CanCreate st dir (newName path) ∧
        Created st st' dir v (newName path) .file := by
  by_cases hreach : ∃ dir ops, Reaches st (openCwd st cwd path) path dir ∧ dir ≠ 0 ∧
      (st.vnodes dir).vOps = some ops
  swap
  · have hfail : ∀ dir, Reaches st (openCwd st cwd path) path dir →
        dir = 0 ∨ (st.vnodes dir).vOps = none := by
      intro dir hdir
      by_contra hne
      push Not at hne
      obtain ⟨ops, hops⟩ := Option.ne_none_iff_exists'.1 hne.2
      exact hreach ⟨dir, ops, hdir, hne.1, hops⟩
    obtain ⟨st', r, heq, hr, hext, -⟩ := vfsOpenCreate_fails h.heap hnul hfail vnode
    exact Or.inl ⟨st', r, heq, hr, hext⟩
  obtain ⟨dir, ops, hreach, hdir0, hops⟩ := hreach
  have hdir : dir ∈ T :=
    (resolveParent_mem h (openCwd_mem h hcwd path) hreach.parent).resolve_left hdir0
  have heq := vfsOpenCreate_reaches hnul hreach hdir0 hops vnode
  obtain ⟨hext, hsame, hfresh⟩ := hreach.extends h.heap
  rw [heq]
  rcases create_cases hext.ok ops vnode (newName path) with
    ⟨st₃, r, v, hcreate, -, hext₃, hv⟩ | ⟨st₃, v, -, hcreate, hcan, hc⟩
  · rw [hcreate]
    refine Or.inr (Or.inl ⟨_, v, rfl, ?_, hv⟩)
    exact (hext.trans hext₃).free (fun _ hb => absurd hb List.not_mem_nil) hfresh
  · rw [hcreate]
    exact Or.inr (Or.inr ⟨_, dir, v, rfl, hdir, hreach, hcan.congr hsame.symm,
      hc.free_copy hext hsame hfresh⟩)

theorem vfsMkdir_fails (hok : st.heap.Ok) (hnul : (0 : UInt8) ∉ path)
    (hfail : ∀ dir ops, Reaches st cwd path dir → dir ≠ 0 → (st.vnodes dir).vOps = some ops →
      newName path = []) :
    ∃ st' r, vfsMkdir st cwd (some path) = (st', r) ∧ r < 0 ∧ Extends st st' [] ∧
      SameTree st st' := by
  by_cases hcopy : CopyOk st path
  swap
  · have hzero : (strdup st path).2 = 0 := not_not.1 hcopy
    refine ⟨(strdup st path).1, enomem, ?_, by decide, ⟨strdup_extends hok hcopy, sameTree_strdup st path⟩⟩
    simp only [vfsMkdir, if_pos hzero]
  have hcopy' : ¬ (strdup st path).2 = 0 := hcopy
  have hsame := sameTree_strdup st path
  have hok' : (strdup st path).1.heap.Ok := hok.alloc _
  by_cases hnocwd : lastSlash path path.length = none ∧ cwd = 0
  · refine ⟨_, einterr, ?_, by decide, strdup_free hok hcopy ⟨Extends.refl hok', rfl, rfl, rfl, rfl⟩⟩
    simp only [vfsMkdir, if_neg hcopy', if_pos hnocwd]
  by_cases hparent : ParentCopyOk (strdup st path).1 path ∧
      ∃ dir, resolveParent (strdup st path).1 cwd path = .ok dir
  swap
  · obtain ⟨st', r, v, heq, hr, hext⟩ := lookupParent_fails hok' hnul hparent
    refine ⟨st'.free (strdup st path).2, r, ?_, hr, strdup_free hok hcopy hext⟩
    simp only [vfsMkdir, if_neg hcopy', if_neg hnocwd, heq, if_pos hr.ne]
  obtain ⟨hpcopy, dir, hdir⟩ := hparent
  have heq := lookupParent_ok hnul hpcopy hdir
  have hext := strdup_free hok hcopy (afterParent_extends hok' hpcopy)
  rw [hsame.resolveParent] at hdir
  by_cases hname : newName path = []
  · have hname' := hname
    rw [newName] at hname'
    refine ⟨_, einval, ?_, by decide, hext⟩
    simp only [vfsMkdir, if_neg hcopy', if_neg hnocwd, heq, if_neg (not_not.2 rfl), if_pos hname']
  have hname' := hname
  rw [newName] at hname'
  refine ⟨_, eacces, ?_, by decide, hext⟩
  by_cases hdir0 : dir = 0
  · subst hdir0
    simp only [vfsMkdir, if_neg hcopy', if_neg hnocwd, heq, if_neg (not_not.2 rfl), if_neg hname',
      if_true]
  have hvops : ((afterParent (strdup st path).1 path).vnodes dir).vOps = none := by
    by_contra hne
    obtain ⟨ops, hops⟩ := Option.ne_none_iff_exists'.1 hne
    refine hname (hfail dir ops ⟨hcopy, hpcopy, hdir⟩ hdir0 ?_)
    rw [← hops, afterParent]
    cases parentPath path <;> rfl
  simp only [vfsMkdir, if_neg hcopy', if_neg hnocwd, heq, if_neg (not_not.2 rfl), if_neg hname',
    if_neg hdir0, hvops]

theorem vfsMkdir_reaches (hnul : (0 : UInt8) ∉ path) {ops : VnodeOps} (hreach : Reaches st cwd path dir)
    (hdir : dir ≠ 0) (hops : (st.vnodes dir).vOps = some ops) (hname : newName path ≠ []) :
    vfsMkdir st cwd (some path) =
      ((ops.mkdir (beforeCreate st path) dir 0 (newName path)).1.free (strdup st path).2,
        (ops.mkdir (beforeCreate st path) dir 0 (newName path)).2.1) := by
  have hcopy : ¬ (strdup st path).2 = 0 := hreach.copy
  have hnocwd : ¬ (lastSlash path path.length = none ∧ cwd = 0) := by
    rintro ⟨hlast, rfl⟩
    have hparent := hreach.parent
    rw [resolveParent, parentPath, hlast] at hparent
    exact hdir (Except.ok.inj hparent).symm
  have hparent := lookupParent_ok hnul hreach.parentCopy
    ((sameTree_strdup st path).resolveParent ▸ hreach.parent)
  have hvops : ((beforeCreate st path).vnodes dir).vOps = some ops := by
    rw [beforeCreate, afterParent]
    cases parentPath path <;> exact hops
  rw [newName] at hname
  simp only [vfsMkdir, if_neg hcopy, if_neg hnocwd, hparent, if_neg (not_not.2 rfl), if_neg hname,
    if_neg hdir]
  rw [← beforeCreate]
  simp only [hvops]
  rfl

/-- `vfs_mkdir` fails without an effect or makes a vnode. -/
theorem vfsMkdir_cases (h : Tree st T) (hcwd : cwd = 0 ∨ cwd ∈ T) (hnul : (0 : UInt8) ∉ path) :
    (∃ st' r, vfsMkdir st cwd (some path) = (st', r) ∧ r < 0 ∧ Extends st st' []) ∨
      ∃ st' dir v, vfsMkdir st cwd (some path) = (st', 0) ∧ dir ∈ T ∧ Reaches st cwd path dir ∧
        CanCreate st dir (newName path) ∧ Created st st' dir v (newName path) .directory := by
  by_cases hreach : ∃ dir ops, Reaches st cwd path dir ∧ dir ≠ 0 ∧
      (st.vnodes dir).vOps = some ops ∧ newName path ≠ []
  swap
  · have hfail : ∀ dir ops, Reaches st cwd path dir → dir ≠ 0 → (st.vnodes dir).vOps = some ops →
        newName path = [] := by
      intro dir ops hdir hdir0 hops
      by_contra hname
      exact hreach ⟨dir, ops, hdir, hdir0, hops, hname⟩
    obtain ⟨st', r, heq, hr, hext, -⟩ := vfsMkdir_fails h.heap hnul hfail
    exact Or.inl ⟨st', r, heq, hr, hext⟩
  obtain ⟨dir, ops, hreach, hdir0, hops, hname⟩ := hreach
  have hdir : dir ∈ T := (resolveParent_mem h hcwd hreach.parent).resolve_left hdir0
  have heq := vfsMkdir_reaches hnul hreach hdir0 hops hname
  obtain ⟨hext, hsame, hfresh⟩ := hreach.extends h.heap
  rw [heq]
  rcases mkdir_cases hext.ok ops (newName path) with
    ⟨st₃, r, v, hmkdir, hr, hext₃⟩ | ⟨st₃, v, -, hmkdir, hcan, hc⟩
  · rw [hmkdir]
    exact Or.inl ⟨_, r, rfl, hr, (hext.trans hext₃).free (fun _ hb => absurd hb List.not_mem_nil) hfresh⟩
  · rw [hmkdir]
    exact Or.inr ⟨_, dir, v, rfl, hdir, hreach, hcan.congr hsame.symm,
      hc.free_copy hext hsame hfresh⟩

/-- The allocation of the handle that stays: a device has its own. -/
def RoomToOpen (st : State) : FileOps → Prop
  | .tmpfs | .initramfs => (st.alloc sizeofFile).2 ≠ 0
  | .uart | .framebuffer => ((st.alloc sizeofFile).1.alloc sizeofFile).2 ≠ 0

structure Opens (st st' : State) (bs : List (ℕ × ℕ)) : Prop where
  extend : Extends st st' bs
  handle : ∀ b ∈ bs, b.2 = sizeofFile
  same : SameTree st st'

theorem Opens.setFile (h : Opens st st' bs) {p : ℕ} (hp : Extends.Fresh st p) (f : File → File) :
    Opens st (st'.setFile p f) bs :=
  ⟨h.extend.setFile hp f, h.handle, h.same.vnodes, h.same.nodes, h.same.mounts, h.same.rootfs⟩

theorem alloc_file (hok : st.heap.Ok) :
    (∃ st', st.alloc sizeofFile = (st', 0) ∧ Opens st st' []) ∨
      ∃ st' p, st.alloc sizeofFile = (st', p) ∧ p ≠ 0 ∧ Extends.Fresh st p ∧
        Opens st st' [(p, sizeofFile)] := by
  rcases State.alloc_cases hok (n := sizeofFile) (by decide) with
    ⟨st', heq, hext⟩ | ⟨st', p, heq, hp, hfresh, hext, -⟩
  · have hst : st' = (st.alloc sizeofFile).1 := by rw [heq]
    exact Or.inl ⟨st', heq, hext, (fun _ hb => absurd hb List.not_mem_nil), hst ▸ ⟨rfl, rfl, rfl, rfl⟩⟩
  · have hst : st' = (st.alloc sizeofFile).1 := by rw [heq]
    refine Or.inr ⟨st', p, heq, hp, hfresh, hext, fun b hb => ?_, hst ▸ ⟨rfl, rfl, rfl, rfl⟩⟩
    rw [List.mem_singleton.1 hb]

theorem Opens.trans (h₁ : Opens st st₁ bs) (h₂ : Opens st₁ st₂ cs) : Opens st st₂ (cs ++ bs) where
  extend := h₁.extend.trans h₂.extend
  handle b hb := (List.mem_append.1 hb).elim (h₂.handle b) (h₁.handle b)
  same := h₁.same.trans h₂.same

theorem Opens.free_null (h : Opens st st' bs) : Opens st (st'.free 0) bs :=
  ⟨h.extend.free_null, h.handle, h.same.vnodes, h.same.nodes, h.same.mounts, h.same.rootfs⟩

def OpensVnode (st : State) (v : ℕ) (ops : FileOps) (flags : BitVec 32) : Prop :=
  (∃ st' r bs, vfsOpenVnode st flags v = some (st', r, 0) ∧ r < 0 ∧ Opens st st' bs ∧
    ¬ RoomToOpen st ops) ∨
  ∃ st' file bs, vfsOpenVnode st flags v = some (st', 0, file) ∧ Opens st st' ((file, sizeofFile) :: bs) ∧
    st'.files file = ⟨v, 0, some ops, flags⟩ ∧ RoomToOpen st ops

theorem opensVnode_file (hok : st.heap.Ok) (hv : v ≠ 0) {ops : FileOps}
    (hops : (st.vnodes v).fOps = some ops) (hdev : ops = .tmpfs ∨ ops = .initramfs) :
    OpensVnode st v ops flags := by
  have hopen : ∀ st₁ file, ops.open st₁ v file =
      ((tmpfsOpen st₁ v file).1, (tmpfsOpen st₁ v file).2, file) := by
    intro st₁ file
    rcases hdev with rfl | rfl <;> rfl
  have hroom : RoomToOpen st ops ↔ (st.alloc sizeofFile).2 ≠ 0 := by
    rcases hdev with rfl | rfl <;> exact Iff.rfl
  rcases alloc_file hok with ⟨st₁, heq, hopens⟩ | ⟨st₁, file, heq, hfile, hfresh, hopens⟩
  · have hops₁ : (st₁.vnodes v).fOps = some ops := by rw [hopens.same.vnodes, hops]
    refine Or.inl ⟨st₁.free 0, einval, [], ?_, by decide, hopens.free_null, ?_⟩
    · have hnull : tmpfsOpen st₁ v 0 = (st₁, einval) := if_pos (Or.inr rfl)
      simp only [vfsOpenVnode, heq, if_neg hv, hops₁, hopen, hnull]
      rfl
    · rw [hroom, heq]
      exact not_not.2 rfl
  · have hops₁ : (st₁.vnodes v).fOps = some ops := by rw [hopens.same.vnodes, hops]
    have hnull : ¬ (v = 0 ∨ file = 0) := fun h => h.elim hv hfile
    have hset := (hopens.setFile hfresh fun e =>
      { e with fPos := 0, vnode := v, fOps := (st₁.vnodes v).fOps }).setFile hfresh fun e =>
      { e with flags := flags }
    refine Or.inr ⟨_, file, [], ?_, hset, ?_, ?_⟩
    · simp only [vfsOpenVnode, heq, if_neg hv, hops₁, hopen, tmpfsOpen, if_neg hnull]
      rfl
    · simp only [State.setFile, Function.update_self, hops₁]
    · rw [hroom, heq]
      exact hfile

theorem opensVnode_device (hok : st.heap.Ok) (hv : v ≠ 0) {ops : FileOps}
    (hops : (st.vnodes v).fOps = some ops) (hdev : ops = .uart ∨ ops = .framebuffer) :
    OpensVnode st v ops flags := by
  have hopen : ∀ st₁ file, ops.open st₁ v file = devOpen ops st₁ v := by
    intro st₁ file
    rcases hdev with rfl | rfl <;> rfl
  have hroom : RoomToOpen st ops ↔ ((st.alloc sizeofFile).1.alloc sizeofFile).2 ≠ 0 := by
    rcases hdev with rfl | rfl <;> exact Iff.rfl
  -- The handle that `vfs_open` has allocated is forgotten.
  obtain ⟨st₁, file, cs, heq, hopens₁⟩ : ∃ st₁ file cs, st.alloc sizeofFile = (st₁, file) ∧
      Opens st st₁ cs := by
    rcases alloc_file hok with ⟨st₁, heq, hopens⟩ | ⟨st₁, file, heq, -, -, hopens⟩
    · exact ⟨st₁, 0, _, heq, hopens⟩
    · exact ⟨st₁, file, _, heq, hopens⟩
  have hops₁ : (st₁.vnodes v).fOps = some ops := by rw [hopens₁.same.vnodes, hops]
  rw [heq] at hroom
  rcases alloc_file hopens₁.extend.ok with ⟨st₂, heq₂, hopens₂⟩ | ⟨st₂, h, heq₂, hh, hfresh, hopens₂⟩
  · refine Or.inl ⟨st₂.free 0, enomem, _, ?_, by decide, (hopens₁.trans hopens₂).free_null, ?_⟩
    · simp only [vfsOpenVnode, heq, if_neg hv, hops₁, hopen, devOpen, heq₂, if_true]
      rfl
    · rw [hroom, heq₂]
      exact not_not.2 rfl
  · have hfresh' : Extends.Fresh st h := fun b hb => hfresh b (hopens₁.extend.mem_live hb)
    have hset := ((hopens₁.trans hopens₂).setFile hfresh' fun e =>
      { e with vnode := v, fPos := 0, fOps := some ops }).setFile hfresh' fun e =>
      { e with flags := flags }
    refine Or.inr ⟨_, h, cs, ?_, hset, ?_, ?_⟩
    · simp only [vfsOpenVnode, heq, if_neg hv, hops₁, hopen, devOpen, heq₂, if_neg hh]
      rfl
    · simp only [State.setFile, Function.update_self]
    · rw [hroom, heq₂]
      exact hh

theorem opensVnode (hok : st.heap.Ok) (hv : v ≠ 0) {ops : FileOps}
    (hops : (st.vnodes v).fOps = some ops) : OpensVnode st v ops flags := by
  cases ops with
  | tmpfs => exact opensVnode_file hok hv hops (Or.inl rfl)
  | initramfs => exact opensVnode_file hok hv hops (Or.inr rfl)
  | uart => exact opensVnode_device hok hv hops (Or.inl rfl)
  | framebuffer => exact opensVnode_device hok hv hops (Or.inr rfl)

/-- A vnode of the tree is opened. -/
theorem vfsOpenVnode_cases (h : Tree st T) (hv : v ∈ T) (flags : BitVec 32) :
    ∃ ops, (st.vnodes v).fOps = some ops ∧ OpensVnode st v ops flags := by
  obtain ⟨ops, hops⟩ := Option.ne_none_iff_exists'.1 (h.fOps v hv).1
  exact ⟨ops, hops, opensVnode h.heap (h.ne_zero hv) hops⟩

structure NewHandle (st st' : State) (file v : ℕ) (flags : BitVec 32) : Prop where
  ne_zero : file ≠ 0
  fresh : Extends.Fresh st file
  live : (file, sizeofFile) ∈ st'.heap.live
  file : st'.files file = ⟨v, 0, (st'.vnodes v).fOps, flags⟩

theorem Opens.newHandle {file : ℕ} {ops : FileOps} (h : Opens st st' ((file, sizeofFile) :: bs))
    (hfile : st'.files file = ⟨v, 0, some ops, flags⟩) (hops : (st.vnodes v).fOps = some ops) :
    NewHandle st st' file v flags := by
  have hlive : (file, sizeofFile) ∈ st'.heap.live := by
    rw [h.extend.live]
    exact List.mem_cons_self ..
  refine ⟨(h.extend.ok.start_pos _ hlive).ne', h.extend.fresh (List.mem_cons_self ..), hlive, ?_⟩
  rw [hfile, h.same.vnodes, hops]

/-- The end of `vfs_open` for a vnode of the tree. -/
theorem vfsOpenVnode_grows (h : Tree st T) (hv : v ∈ T) (flags : BitVec 32) :
    (∃ st' r, vfsOpenVnode st flags v = some (st', r, 0) ∧ r < 0 ∧ Grows st st' T T ∧
      SameTree st st') ∨
      ∃ st' file, vfsOpenVnode st flags v = some (st', 0, file) ∧ Grows st st' T T ∧
        SameTree st st' ∧ NewHandle st st' file v flags := by
  obtain ⟨ops, hops, ⟨st', r, bs, heq, hr, hopens, -⟩ | ⟨st', file, bs, heq, hopens, hfile, -⟩⟩ :=
    vfsOpenVnode_cases h hv flags
  · exact Or.inl ⟨st', r, heq, hr, Grows.extend h hopens.extend, hopens.same⟩
  · exact Or.inr ⟨st', file, heq, Grows.extend h hopens.extend, hopens.same,
      hopens.newHandle hfile hops⟩

theorem NewHandle.of_extends (h : NewHandle st₁ st' v w flags) (he : Extends st st₁ bs) :
    NewHandle st st' v w flags :=
  ⟨h.ne_zero, fun b hb => h.fresh b (he.mem_live hb), h.live, h.file⟩

/-- `vfs_open` crashes, fails, or opens a vnode of the tree. -/
theorem vfsOpen_cases (h : Tree st T) (hcwd : cwd = 0 ∨ cwd ∈ T) (hnul : (0 : UInt8) ∉ path)
    (flags : BitVec 32) (target : ℕ) :
    vfsOpen st cwd (some path) flags target = none ∨
      (∃ st' r T', vfsOpen st cwd (some path) flags target = some (st', r, 0) ∧ r < 0 ∧
        Grows st st' T T') ∨
      ∃ st' file v T', vfsOpen st cwd (some path) flags target = some (st', 0, file) ∧
        Grows st st' T T' ∧ v ∈ T' ∧ NewHandle st st' file v flags := by
  obtain ⟨hext, hsame⟩ := lookupPath_extends h.heap hnul cwd
  obtain ⟨hok, hleft⟩ := h.lookupPath_mem hcwd hnul
  have hneg : (lookupPath st cwd path).2.1 ≤ 0 := by
    by_cases hcopy : CopyOk st path
    · rw [lookupPath_spec hnul hcopy]
      change code (resolvePath st cwd path) ≤ 0
      cases hr : resolvePath st cwd path with
      | error c => exact (resolvePath_error hr).le
      | ok v => exact le_rfl
    · rw [lookupPath_no_copy hcopy]
      exact (by decide : enomem ≤ 0)
  rcases hlook : lookupPath st cwd path with ⟨st₁, r, v⟩
  rw [hlook] at hext hsame hok hleft hneg
  have hg := Grows.extend h hext
  by_cases hr : r = 0
  · subst hr
    have hv : v ∈ T := hok rfl
    rcases vfsOpenVnode_grows hg.tree hv flags with
      ⟨st', r, heq, hr, hg', -⟩ | ⟨st', file, heq, hg', -, hnew⟩
    · refine Or.inr (Or.inl ⟨st', r, T, ?_, hr, hg.trans hg'⟩)
      simp only [vfsOpen, hlook, if_neg (not_not.2 rfl), heq]
    · refine Or.inr (Or.inr ⟨st', file, v, T, ?_, hg.trans hg', hv, hnew.of_extends hext⟩)
      simp only [vfsOpen, hlook, if_neg (not_not.2 rfl), heq]
  by_cases hcreat : oCreat flags
  swap
  · refine Or.inr (Or.inl ⟨st₁, r, T, ?_, lt_of_le_of_ne hneg hr, hg⟩)
    simp only [vfsOpen, hlook, if_pos hr, if_neg hcreat]
  rcases vfsOpenCreate_cases hg.tree hcwd hnul v with
    ⟨st₂, r₂, heq₂, hr₂, hext₂⟩ | ⟨st₂, w, heq₂, hext₂, hw⟩ | ⟨st₂, dir, w, heq₂, hdir, -, -, hc⟩
  · refine Or.inr (Or.inl ⟨st₂, r₂, T, ?_, hr₂, hg.trans (Grows.extend hg.tree hext₂)⟩)
    simp only [vfsOpen, hlook, if_pos hr, if_pos hcreat, heq₂]
  · have hstep : vfsOpen st cwd (some path) flags target = vfsOpenVnode st₂ flags w := by
      simp only [vfsOpen, hlook, if_pos hr, if_pos hcreat, heq₂]
    by_cases hw0 : w = 0
    · refine Or.inl ?_
      rw [hstep, vfsOpenVnode, hw0]
      rfl
    have hwT : w ∈ T := by
      rcases hw with rfl | rfl
      · exact absurd rfl hw0
      · exact hleft.resolve_left hw0
    have hg₂ := hg.trans (Grows.extend hg.tree hext₂)
    rcases vfsOpenVnode_grows hg₂.tree hwT flags with
      ⟨st', r, heq, hr, hg', -⟩ | ⟨st', file, heq, hg', -, hnew⟩
    · exact Or.inr (Or.inl ⟨st', r, T, hstep.trans heq, hr, hg₂.trans hg'⟩)
    · exact Or.inr (Or.inr ⟨st', file, w, T, hstep.trans heq, hg₂.trans hg', hwT,
        hnew.of_extends (hext.trans hext₂)⟩)
  · have hstep : vfsOpen st cwd (some path) flags target = vfsOpenVnode st₂ flags w := by
      simp only [vfsOpen, hlook, if_pos hr, if_pos hcreat, heq₂]
    have hg₂ := hg.trans (Grows.created hg.tree hdir hc)
    have hwT : w ∈ Insert.insert w T := Set.mem_insert ..
    rcases vfsOpenVnode_grows hg₂.tree hwT flags with
      ⟨st', r, heq, hr, hg', -⟩ | ⟨st', file, heq, hg', -, hnew⟩
    · exact Or.inr (Or.inl ⟨st', r, _, hstep.trans heq, hr, hg₂.trans hg'⟩)
    · obtain ⟨-, st₃, n, data, -, rfl, hext₃, -⟩ := hc
      have hnew' : NewHandle st₃ st' file w flags := ⟨hnew.ne_zero, hnew.fresh, hnew.live, hnew.file⟩
      exact Or.inr (Or.inr ⟨st', file, w, _, hstep.trans heq, hg₂.trans hg', hwT,
        hnew'.of_extends (hext.trans hext₃)⟩)

/-- A call that returns has failed, or it has a new handle. -/
theorem vfsOpen_some (h : Tree st T) (hcwd : cwd = 0 ∨ cwd ∈ T) (hnul : (0 : UInt8) ∉ path) {target file : ℕ}
    {r : ℤ} (heq : vfsOpen st cwd (some path) flags target = some (st', r, file)) :
    ∃ T', Grows st st' T T' ∧
      (r < 0 ∧ file = 0 ∨ r = 0 ∧ ∃ v ∈ T', NewHandle st st' file v flags) := by
  rcases vfsOpen_cases h hcwd hnul flags target with
    hnone | ⟨st₁, r₁, T', heq₁, hr, hg⟩ | ⟨st₁, file₁, v, T', heq₁, hg, hv, hnew⟩
  · rw [hnone] at heq
    cases heq
  · rw [heq] at heq₁
    obtain ⟨rfl, rfl, rfl⟩ : st' = st₁ ∧ r = r₁ ∧ file = 0 := by simpa using heq₁
    exact ⟨T', hg, Or.inl ⟨hr, rfl⟩⟩
  · rw [heq] at heq₁
    obtain ⟨rfl, rfl, rfl⟩ : st' = st₁ ∧ r = 0 ∧ file = file₁ := by simpa using heq₁
    exact ⟨T', hg, Or.inr ⟨rfl, v, hv, hnew⟩⟩

/-- A call of `vfs_close` fails, or clears the handle, or frees it. -/
theorem vfsClose_cases (st : State) (file : ℕ) :
    (∃ r, vfsClose st file = (st, r) ∧ r < 0) ∨
      vfsClose st file = (st.setFile file fun _ => ⟨0, 0, none, 0⟩, 0) ∨
      vfsClose st file = (st.free file, 0) := by
  by_cases hnull : file = 0
  · exact Or.inl ⟨einval, if_pos hnull, by decide⟩
  rw [vfsClose, if_neg hnull]
  cases (st.files file).fOps with
  | none => exact Or.inl ⟨enosys, rfl, by decide⟩
  | some ops =>
      cases ops with
      | tmpfs => exact Or.inr (Or.inl (if_neg hnull))
      | initramfs => exact Or.inr (Or.inl (if_neg hnull))
      | uart => exact Or.inr (Or.inr (if_neg hnull))
      | framebuffer => exact Or.inr (Or.inr (if_neg hnull))

end OscKernel.Vfs
