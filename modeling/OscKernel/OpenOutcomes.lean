import OscKernel.CreateLookup

/-!
# The outcomes of `vfs_open`

A call finds its path and opens what it found, or it fails, or it asks the backend of a directory for a
new file. The answer of the backend is dropped: a refused creation goes on to the same step that opens a
vnode, with the vnode that the first lookup and the backend have left in the variable.
-/

namespace OscKernel.Vfs

variable {st st₁ st₂ st' : State} {T : Set ℕ} {v w dir cwd target : ℕ} {path name : List UInt8}
  {flags : BitVec 32} {ops : VnodeOps}

def afterFind (st : State) (cwd : ℕ) (path : List UInt8) : State := (lookupPath st cwd path).1

structure Asks (st : State) (cwd : ℕ) (path : List UInt8) (dir : ℕ) (ops : VnodeOps) : Prop where
  missing : (lookupPath st cwd path).2.1 ≠ 0
  reaches : Reaches (afterFind st cwd path) (openCwd st cwd path) path dir
  ne_zero : dir ≠ 0
  backend : (st.vnodes dir).vOps = some ops

def whenAsked (st : State) (cwd : ℕ) (path : List UInt8) : State :=
  beforeCreate (afterFind st cwd path) path

def pathCopy (st : State) (cwd : ℕ) (path : List UInt8) : ℕ := (strdup (afterFind st cwd path) path).2

theorem afterFind_extends (h : Tree st T) (hnul : (0 : UInt8) ∉ path) (cwd : ℕ) :
    Extends st (afterFind st cwd path) [] ∧ SameTree st (afterFind st cwd path) :=
  lookupPath_extends h.heap hnul cwd

theorem SameTree.openCwd (h : SameTree st st') (cwd : ℕ) (path : List UInt8) :
    Vfs.openCwd st' cwd path = Vfs.openCwd st cwd path := by
  rw [Vfs.openCwd, Vfs.openCwd, h.root]

theorem vfsOpen_found (hfind : LookupFinds st cwd path v) (flags : BitVec 32) (target : ℕ) :
    vfsOpen st cwd (some path) flags target = vfsOpenVnode (afterFind st cwd path) flags v := by
  rw [afterFind]
  rw [LookupFinds] at hfind
  rcases hlook : lookupPath st cwd path with ⟨st₁, r, w⟩
  rw [hlook] at hfind
  obtain ⟨rfl, rfl⟩ := Prod.mk.inj hfind
  simp only [vfsOpen, hlook, if_neg (not_not.2 rfl)]

theorem lookupPath_code (hnul : (0 : UInt8) ∉ path) (st : State) (cwd : ℕ) :
    (lookupPath st cwd path).2.1 ≤ 0 := by
  by_cases hcopy : CopyOk st path
  · rw [lookupPath_spec hnul hcopy]
    change code (resolvePath st cwd path) ≤ 0
    cases hr : resolvePath st cwd path with
    | error c => exact (resolvePath_error hr).le
    | ok v => exact le_rfl
  · rw [lookupPath_no_copy hcopy]
    exact (by decide : enomem ≤ 0)

/-- A lookup finds a vnode or has an error code. -/
theorem found_or_missing (st : State) (cwd : ℕ) (path : List UInt8) :
    (∃ v, LookupFinds st cwd path v) ∨ (lookupPath st cwd path).2.1 ≠ 0 := by
  by_cases h : (lookupPath st cwd path).2.1 = 0
  · exact Or.inl ⟨_, Prod.ext h rfl⟩
  · exact Or.inr h

theorem LookupFinds.not_missing (h : LookupFinds st cwd path v) :
    ¬ (lookupPath st cwd path).2.1 ≠ 0 :=
  not_not.2 (congrArg Prod.fst h)

/-- Without `O_CREAT` the error of the lookup is returned. -/
theorem vfsOpen_missing (hmissing : (lookupPath st cwd path).2.1 ≠ 0) (hcreat : ¬ oCreat flags)
    (target : ℕ) : vfsOpen st cwd (some path) flags target =
      some (afterFind st cwd path, (lookupPath st cwd path).2.1, 0) := by
  simp only [vfsOpen, if_pos hmissing, if_neg hcreat]
  rfl

theorem vfsOpen_plain (h : Tree st T) (hnul : (0 : UInt8) ∉ path)
    (hmissing : (lookupPath st cwd path).2.1 ≠ 0) (hcreat : ¬ oCreat flags) (target : ℕ) :
    ∃ st' r, vfsOpen st cwd (some path) flags target = some (st', r, 0) ∧ r < 0 ∧
      SameTree st st' :=
  ⟨afterFind st cwd path, _, vfsOpen_missing hmissing hcreat target,
    lt_of_le_of_ne (lookupPath_code hnul st cwd) hmissing, (afterFind_extends h hnul cwd).2⟩

/-- The creation ends before it comes to a backend. -/
theorem vfsOpen_unasked (h : Tree st T) (hnul : (0 : UInt8) ∉ path)
    (hmissing : (lookupPath st cwd path).2.1 ≠ 0) (hno : ∀ dir ops, ¬ Asks st cwd path dir ops)
    (hcreat : oCreat flags) (target : ℕ) :
    ∃ st' r, vfsOpen st cwd (some path) flags target = some (st', r, 0) ∧ r < 0 ∧
      Extends st st' [] ∧ SameTree st st' := by
  obtain ⟨hext, hsame⟩ := afterFind_extends h hnul cwd
  have hfail : ∀ dir, Reaches (afterFind st cwd path) (openCwd (afterFind st cwd path) cwd path) path
      dir → dir = 0 ∨ ((afterFind st cwd path).vnodes dir).vOps = none := by
    intro dir hreach
    rw [hsame.openCwd] at hreach
    by_contra hne
    push Not at hne
    obtain ⟨ops, hops⟩ := Option.ne_none_iff_exists'.1 hne.2
    rw [hsame.vnodes] at hops
    exact hno dir ops ⟨hmissing, hreach, hne.1, hops⟩
  obtain ⟨st', r, heq, hr, hext', hsame'⟩ := vfsOpenCreate_fails hext.ok hnul hfail
    (lookupPath st cwd path).2.2
  refine ⟨st', r, ?_, hr, hext.trans hext', hsame.trans hsame'⟩
  rw [afterFind] at heq
  simp only [vfsOpen, if_pos hmissing, if_pos hcreat, heq]

/-- The creation comes to the backend. -/
theorem Asks.runs (ha : Asks st cwd path dir ops) (h : Tree st T) (hnul : (0 : UInt8) ∉ path)
    (hcreat : oCreat flags) (target : ℕ) :
    vfsOpen st cwd (some path) flags target =
      vfsOpenVnode
        ((ops.create (whenAsked st cwd path) dir (lookupPath st cwd path).2.2 (newName path)).1.free
          (pathCopy st cwd path)) flags
        (ops.create (whenAsked st cwd path) dir (lookupPath st cwd path).2.2 (newName path)).2.2 := by
  have hsame := (afterFind_extends h hnul cwd).2
  have hreach := ha.reaches
  rw [← hsame.openCwd] at hreach
  have hops := ha.backend
  rw [← hsame.vnodes] at hops
  have heq := vfsOpenCreate_reaches hnul hreach ha.ne_zero hops (lookupPath st cwd path).2.2
  rw [whenAsked, pathCopy]
  rw [afterFind] at heq ⊢
  simp only [vfsOpen, if_pos ha.missing, if_pos hcreat, heq]

theorem Asks.keeps (ha : Asks st cwd path dir ops) (h : Tree st T) (hnul : (0 : UInt8) ∉ path) :
    Extends st (whenAsked st cwd path) [(pathCopy st cwd path, (path.length + 1) % 2 ^ 32)] ∧
      SameTree st (whenAsked st cwd path) ∧ Extends.Fresh st (pathCopy st cwd path) := by
  obtain ⟨hext, hsame⟩ := afterFind_extends h hnul cwd
  obtain ⟨hext', hsame', hfresh⟩ := ha.reaches.extends hext.ok
  exact ⟨hext.trans hext', hsame.trans hsame', fun b hb => hfresh b (hext.mem_live hb)⟩

theorem Asks.dir_mem (ha : Asks st cwd path dir ops) (h : Tree st T) (hcwd : cwd = 0 ∨ cwd ∈ T)
    (hnul : (0 : UInt8) ∉ path) : dir ∈ T ∧ resolveParent st (openCwd st cwd path) path = .ok dir := by
  have hparent := ha.reaches.parent
  rw [(afterFind_extends h hnul cwd).2.resolveParent] at hparent
  exact ⟨(resolveParent_mem h (openCwd_mem h hcwd path) hparent).resolve_left ha.ne_zero, hparent⟩

/-- The directory and its backend are determined. -/
theorem Asks.unique {dir' : ℕ} {ops' : VnodeOps} (ha : Asks st cwd path dir ops)
    (ha' : Asks st cwd path dir' ops') : dir' = dir ∧ ops' = ops := by
  have hdir : dir' = dir := Except.ok.inj (ha'.reaches.parent.symm.trans ha.reaches.parent)
  subst hdir
  exact ⟨rfl, Option.some.inj (ha'.backend.symm.trans ha.backend)⟩

theorem tmpfsCreate_no_room (hcan : CanCreate st dir name) (hno : ¬ RoomToCreate st) (target : ℕ) :
    (tmpfsCreate st dir target name).2.2 = 0 := by
  have hnull : ¬ (dir = 0 ∨ (st.vnodes dir).internal = 0 ∨ name = []) := by
    rintro (h | h | h)
    · exact hcan.vnode h
    · exact hcan.node h
    · exact hcan.named h
  have habsent : ¬ (findChild st (st.internal dir) name).isSome := by simp [hcan.absent]
  simp only [tmpfsCreate, tmpfsCreateOrMkdir, if_neg hnull, if_neg (not_not.2 hcan.directory),
    if_neg (not_le.2 hcan.short), if_neg habsent, if_neg (not_le.2 hcan.room),
    tmpfsCreateInternalNode]
  rw [RoomToCreate] at hno
  rcases h₁ : st.alloc sizeofNode with ⟨st₁, n⟩
  rw [h₁] at hno
  by_cases hn : n = 0
  · simp only [if_pos hn, if_true]
  rcases h₂ : st₁.alloc defaultFileSize with ⟨st₂, data⟩
  simp only [if_neg hn, if_true, alloc_setNode, h₂]
  by_cases hdata : data = 0
  · simp only [if_pos hdata, if_true]
  rcases h₃ : st₂.alloc sizeofVnode with ⟨st₃, v⟩
  have hv : v = 0 := by
    by_contra hv
    refine hno ⟨hn, ?_, ?_⟩
    · rwa [h₂]
    · rwa [h₂, h₃]
  simp only [if_neg hdata, if_neg hn, alloc_setNode, h₃, if_pos hv]

theorem create_accepted (hok : st.heap.Ok) (hacc : Accepts st dir name) (left : ℕ) :
    ∃ st' v, VnodeOps.create .tmpfs st dir left name = (st', 0, v) ∧
      Created st st' dir v name .file ∧
      st'.heap = (((st.alloc sizeofNode).1.alloc defaultFileSize).1.alloc sizeofVnode).1.heap := by
  obtain ⟨-, hcan, hroom⟩ := hacc
  obtain ⟨hret, hheap⟩ := tmpfsCreate_room hcan hroom left
  rcases tmpfsCreateOrMkdir_cases hok hcan left .file with ⟨st', heq, -⟩ | ⟨st', v, heq, hc⟩
  · rw [tmpfsCreate, heq] at hret
    exact absurd (show enomem = 0 from hret) (by decide)
  · rw [tmpfsCreate, heq] at hheap
    exact ⟨st', v, heq, hc, hheap⟩

theorem tmpfsCreate_unnamed (st : State) (dir target : ℕ) :
    tmpfsCreate st dir target [] = (st, einval, target) := if_pos (Or.inr (Or.inr rfl))

/-- The vnode that a refusal leaves to be opened: `initramfs_create` never writes the variable, and
`tmpfs_create` not before it has seen that there is a name. -/
def refusedVnode (ops : VnodeOps) (left : ℕ) (name : List UInt8) : ℕ :=
  if ops = .tmpfs ∧ name ≠ [] then 0 else left

theorem create_refused (hdir : dir ≠ 0) (hnode : (st.vnodes dir).internal ≠ 0)
    (hops : (st.vnodes dir).vOps = some ops) (hno : ¬ Accepts st dir name) (left : ℕ) :
    (ops.create st dir left name).2.2 = refusedVnode ops left name := by
  cases ops with
  | initramfs => exact (if_neg fun h => nomatch h.1).symm
  | tmpfs =>
      by_cases hname : name = []
      · subst hname
        rw [refusedVnode, if_neg fun h => h.2 rfl, VnodeOps.create, tmpfsCreate_unnamed]
      rw [refusedVnode, if_pos ⟨rfl, hname⟩]
      by_cases hcan : CanCreate st dir name
      · exact tmpfsCreate_no_room hcan (fun hroom => hno ⟨hops, hcan, hroom⟩) left
      · obtain ⟨r, w, heq, -, hw⟩ := tmpfsCreateOrMkdir_refused hcan left .file
        rw [VnodeOps.create, tmpfsCreate, heq]
        rcases hw with rfl | ⟨-, h | h | h⟩
        · rfl
        · exact absurd h hdir
        · exact absurd h hnode
        · exact absurd h hname

/-- A refusal that leaves a vnode has no effect. -/
theorem create_leaves (hw : refusedVnode ops w name ≠ 0) (st : State) (dir : ℕ) :
    (ops.create st dir w name).1 = st := by
  cases ops with
  | initramfs => rfl
  | tmpfs =>
      have hname : name = [] := by
        by_contra hname
        exact hw (if_pos ⟨rfl, hname⟩)
      rw [hname, VnodeOps.create, tmpfsCreate_unnamed]

def Refused (st : State) (cwd : ℕ) (path : List UInt8) (dir : ℕ) (ops : VnodeOps) : Prop :=
  Asks st cwd path dir ops ∧ ¬ Accepts (whenAsked st cwd path) dir (newName path)

def staleVnode (st : State) (cwd : ℕ) (path : List UInt8) (ops : VnodeOps) : ℕ :=
  refusedVnode ops (lookupPath st cwd path).2.2 (newName path)

def afterRefusal (st : State) (cwd : ℕ) (path : List UInt8) : State :=
  (whenAsked st cwd path).free (pathCopy st cwd path)

theorem vfsOpenVnode_null (st : State) (flags : BitVec 32) : vfsOpenVnode st flags 0 = none := rfl

theorem Refused.keeps (hr : Refused st cwd path dir ops) (h : Tree st T)
    (hnul : (0 : UInt8) ∉ path) :
    Extends st (afterRefusal st cwd path) [] ∧ SameTree st (afterRefusal st cwd path) := by
  obtain ⟨hext, hsame, hfresh⟩ := hr.1.keeps h hnul
  exact ⟨hext.free (fun _ hb => absurd hb List.not_mem_nil) hfresh, hsame.vnodes, hsame.nodes, hsame.mounts,
    hsame.rootfs⟩

/-- A refusal goes on to open the stale vnode. -/
theorem Refused.runs (hr : Refused st cwd path dir ops) (h : Tree st T)
    (hcwd : cwd = 0 ∨ cwd ∈ T) (hnul : (0 : UInt8) ∉ path) (hcreat : oCreat flags) (target : ℕ) :
    vfsOpen st cwd (some path) flags target =
      if staleVnode st cwd path ops = 0 then none
      else vfsOpenVnode (afterRefusal st cwd path) flags (staleVnode st cwd path ops) := by
  have hsame := (hr.1.keeps h hnul).2.1
  have hdir := (hr.1.dir_mem h hcwd hnul).1
  have hnode : ((whenAsked st cwd path).vnodes dir).internal ≠ 0 := by
    rw [hsame.vnodes]
    exact (h.internal_ne_zero hdir)
  have hops : ((whenAsked st cwd path).vnodes dir).vOps = some ops := by
    rw [hsame.vnodes]
    exact hr.1.backend
  have hleft := create_refused hr.1.ne_zero hnode hops hr.2 (lookupPath st cwd path).2.2
  rw [hr.1.runs h hnul hcreat, hleft, ← staleVnode]
  split_ifs with h0
  · rw [h0, vfsOpenVnode_null]
  · rw [create_leaves h0]
    rfl

theorem Refused.stale_mem (h : Tree st T) (hcwd : cwd = 0 ∨ cwd ∈ T) (hnul : (0 : UInt8) ∉ path)
    (h0 : staleVnode st cwd path ops ≠ 0) : staleVnode st cwd path ops ∈ T := by
  rw [staleVnode, refusedVnode] at h0 ⊢
  split_ifs at h0 ⊢ with hc
  · exact absurd rfl h0
  · exact (h.lookupPath_mem hcwd hnul).2.resolve_left h0

def afterCreate (st : State) (cwd : ℕ) (path : List UInt8) : State :=
  ((((whenAsked st cwd path).alloc sizeofNode).1.alloc defaultFileSize).1.alloc sizeofVnode).1.free
    (pathCopy st cwd path)

/-- An accepted creation goes on to open the new vnode. -/
theorem Asks.accepted (ha : Asks st cwd path dir ops) (h : Tree st T) (hcwd : cwd = 0 ∨ cwd ∈ T)
    (hnul : (0 : UInt8) ∉ path) (hacc : Accepts (whenAsked st cwd path) dir (newName path))
    (hcreat : oCreat flags) (target : ℕ) :
    ∃ st' v, vfsOpen st cwd (some path) flags target = vfsOpenVnode st' flags v ∧ dir ∈ T ∧
      CanCreate st dir (newName path) ∧ Created st st' dir v (newName path) .file ∧
      st'.heap = (afterCreate st cwd path).heap := by
  obtain ⟨hext, hsame, hfresh⟩ := ha.keeps h hnul
  have hdir := (ha.dir_mem h hcwd hnul).1
  obtain ⟨st', v, heq, hc, hheap⟩ :=
    create_accepted hext.ok hacc (lookupPath st cwd path).2.2
  have hops : ops = .tmpfs := by
    have htmpfs := hacc.1
    rw [hsame.vnodes, ha.backend] at htmpfs
    exact Option.some.inj htmpfs
  subst hops
  refine ⟨_, v, ?_, hdir, hacc.2.1.congr hsame.symm, hc.free_copy hext hsame hfresh, ?_⟩
  · rw [ha.runs h hnul hcreat, heq]
  · change st'.heap.free _ = _
    rw [hheap]
    rfl

def CanMake (st : State) (cwd : ℕ) (path : List UInt8) : Prop :=
  ∃ dir ops, Asks st cwd path dir ops ∧ Accepts (whenAsked st cwd path) dir (newName path)

/-- `vfs_open` uses no null vnode, and a call for a path that is not found and not made returns an error
code, opens nothing and leaves the tree alone. -/
def FailsCleanly (st : State) (cwd : ℕ) (path : List UInt8) (flags : BitVec 32) (target : ℕ) : Prop :=
  vfsOpen st cwd (some path) flags target ≠ none ∧
    ((lookupPath st cwd path).2.1 ≠ 0 → ¬ (oCreat flags ∧ CanMake st cwd path) →
      ∃ st' r, vfsOpen st cwd (some path) flags target = some (st', r, 0) ∧ r < 0 ∧ SameTree st st')

/-- A creation is refused, and the stale vnode is null, or there is room for a handle on it. -/
def RefusalIgnored (st : State) (cwd : ℕ) (path : List UInt8) : Prop :=
  ∃ dir ops, Refused st cwd path dir ops ∧
    (staleVnode st cwd path ops = 0 ∨
      ∃ fOps, (st.vnodes (staleVnode st cwd path ops)).fOps = some fOps ∧
        RoomToOpen (afterRefusal st cwd path) fOps)

theorem OpensVnode.ne_none {fOps : FileOps} (h : OpensVnode st v fOps flags) :
    vfsOpenVnode st flags v ≠ none := by
  rcases h with ⟨st', r, bs, heq, -⟩ | ⟨st', file, bs, heq, -⟩ <;>
  · rw [heq]
    exact nofun

theorem vfsOpenVnode_ne_none (h : Tree st T) (hv : v ∈ T) (flags : BitVec 32) :
    vfsOpenVnode st flags v ≠ none := by
  obtain ⟨fOps, -, hopens⟩ := vfsOpenVnode_cases h hv flags
  exact hopens.ne_none

theorem Refused.failsCleanly_iff (hr : Refused st cwd path dir ops) (h : Tree st T)
    (hcwd : cwd = 0 ∨ cwd ∈ T) (hnul : (0 : UInt8) ∉ path) (hcreat : oCreat flags) (target : ℕ) :
    FailsCleanly st cwd path flags target ↔ ¬ RefusalIgnored st cwd path := by
  have hnot : ¬ CanMake st cwd path := by
    rintro ⟨dir', ops', ha, hacc⟩
    rw [(hr.1.unique ha).1] at hacc
    exact hr.2 hacc
  have hstep := hr.runs h hcwd hnul hcreat target
  by_cases h0 : staleVnode st cwd path ops = 0
  · refine iff_of_false (fun hclean => hclean.1 ?_) fun hno => hno ⟨dir, ops, hr, Or.inl h0⟩
    rw [hstep, if_pos h0]
  rw [if_neg h0] at hstep
  have hstale := Refused.stale_mem h hcwd hnul h0
  obtain ⟨hext, hsame⟩ := hr.keeps h hnul
  obtain ⟨fOps, hfOps, hopens⟩ := vfsOpenVnode_cases (h.extend hext) hstale flags
  rw [hsame.vnodes] at hfOps
  rcases hopens with ⟨st', r, bs, heq, hneg, hopens, hfull⟩ | ⟨st', file, bs, heq, hopens, -, hroom⟩
  · refine iff_of_true ⟨?_, fun _ _ => ⟨st', r, hstep.trans heq, hneg, hsame.trans hopens.same⟩⟩ ?_
    · rw [hstep, heq]
      exact nofun
    · rintro ⟨dir', ops', hr', hignored⟩
      rw [(hr.1.unique hr'.1).2] at hignored
      rcases hignored with h0' | ⟨fOps', hfOps', hroom⟩
      · exact h0 h0'
      · rw [Option.some.inj (hfOps'.symm.trans hfOps)] at hroom
        exact hfull hroom
  · refine iff_of_false (fun hclean => ?_) fun hno =>
      hno ⟨dir, ops, hr, Or.inr ⟨fOps, hfOps, hroom⟩⟩
    obtain ⟨st₂, r, heq₂, hneg, -⟩ := hclean.2 hr.1.missing fun hmake => hnot hmake.2
    rw [hstep, heq] at heq₂
    exact hneg.ne (Prod.mk.inj (Prod.mk.inj (Option.some.inj heq₂)).2).1.symm

/-- Exactly the refusals of a backend are not reported. -/
theorem vfsOpen_failsCleanly_iff {s : Sys} (hs : s.Reachable) (t : ℕ) (hnul : (0 : UInt8) ∉ path)
    (flags : BitVec 32) (target : ℕ) :
    FailsCleanly s.st (s.tasks t).cwd path flags target ↔
      ¬ (oCreat flags ∧ RefusalIgnored s.st (s.tasks t).cwd path) := by
  obtain ⟨T, hinv⟩ := hs.inv
  have h := hinv.tree
  have hcwd := hinv.cwd t
  rcases found_or_missing s.st (s.tasks t).cwd path with ⟨v, hfind⟩ | hmissing
  · refine iff_of_true ⟨?_, fun hmissing => absurd hmissing hfind.not_missing⟩ ?_
    · rw [vfsOpen_found hfind]
      have hext := (afterFind_extends h hnul (s.tasks t).cwd).1
      refine vfsOpenVnode_ne_none (h.extend hext) ?_ flags
      exact h.resolvePath_mem hcwd ((lookupFinds_iff hnul).1 hfind).2
    · rintro ⟨-, dir, ops, hr, -⟩
      exact hfind.not_missing hr.1.missing
  by_cases hcreat : oCreat flags
  swap
  · obtain ⟨st', r, heq, hr, hsame⟩ := vfsOpen_plain h hnul hmissing hcreat target
    refine iff_of_true ⟨?_, fun _ _ => ⟨st', r, heq, hr, hsame⟩⟩ fun hc => hcreat hc.1
    rw [heq]
    exact nofun
  by_cases hasks : ∃ dir ops, Asks s.st (s.tasks t).cwd path dir ops
  swap
  · have hno : ∀ dir ops, ¬ Asks s.st (s.tasks t).cwd path dir ops := fun dir ops ha =>
      hasks ⟨dir, ops, ha⟩
    obtain ⟨st', r, heq, hr, -, hsame⟩ := vfsOpen_unasked h hnul hmissing hno hcreat target
    refine iff_of_true ⟨?_, fun _ _ => ⟨st', r, heq, hr, hsame⟩⟩ ?_
    · rw [heq]
      exact nofun
    · rintro ⟨-, dir, ops, hr, -⟩
      exact hno dir ops hr.1
  obtain ⟨dir, ops, ha⟩ := hasks
  by_cases hacc : Accepts (whenAsked s.st (s.tasks t).cwd path) dir (newName path)
  · obtain ⟨st', v, heq, hdir, hcan, hc, -⟩ := ha.accepted h hcwd hnul hacc hcreat target
    refine iff_of_true ⟨?_, fun _ hno => absurd ⟨hcreat, dir, ops, ha, hacc⟩ hno⟩ ?_
    · rw [heq]
      exact vfsOpenVnode_ne_none (h.created hdir hc) (Set.mem_insert ..) flags
    · rintro ⟨-, dir', ops', hr, -⟩
      have hacc' := hr.2
      rw [(ha.unique hr.1).1] at hacc'
      exact hacc' hacc
  · rw [Refused.failsCleanly_iff ⟨ha, hacc⟩ h hcwd hnul hcreat]
    exact not_congr ⟨fun hi => ⟨hcreat, hi⟩, fun hi => hi.2⟩

/-- The path `/a/b` cannot be made where `/a` is missing. -/
theorem vfsOpen_failsCleanly_missing :
    (vfsOpen Sys.blank.st (Sys.blank.tasks 0).cwd (some [47, 97, 47, 98]) 64 0).map (·.2.1) ≠ some 0 ∧
      (FailsCleanly Sys.blank.st (Sys.blank.tasks 0).cwd [47, 97, 47, 98] 64 0 ↔
        ¬ (oCreat 64 ∧ RefusalIgnored Sys.blank.st (Sys.blank.tasks 0).cwd [47, 97, 47, 98])) :=
  ⟨by decide, vfsOpen_failsCleanly_iff Sys.blank_reachable 0 (by decide) 64 0⟩

def longPath : List UInt8 := 47 :: List.replicate maxFileName 97

/-- The root refuses the name, and `vfs_open` uses a null vnode. -/
theorem vfsOpen_long_name_crashes :
    Sys.blank.Reachable ∧ vfsOpen Sys.blank.st (Sys.blank.tasks 0).cwd (some longPath) 64 0 = none ∧
      ¬ FailsCleanly Sys.blank.st (Sys.blank.tasks 0).cwd longPath 64 0 := by
  have hnone : vfsOpen Sys.blank.st (Sys.blank.tasks 0).cwd (some longPath) 64 0 = none :=
    Option.isNone_iff_eq_none.1 (by decide +kernel)
  exact ⟨Sys.blank_reachable, hnone, fun hclean => hclean.1 hnone⟩

theorem Asks.creates (ha : Asks st cwd path dir ops) (h : Tree st T) (hcwd : cwd = 0 ∨ cwd ∈ T)
    (hnul : (0 : UInt8) ∉ path) (hacc : Accepts (whenAsked st cwd path) dir (newName path))
    (hcreat : oCreat flags) {file : ℕ}
    (heq : vfsOpen st cwd (some path) flags target = some (st', 0, file)) :
    ∃ v, Creates st st' dir v (newName path) .file ∧ (st'.files file).vnode = v := by
  obtain ⟨st₁, v, hopen, hdir, hcan, hc, -⟩ := ha.accepted h hcwd hnul hacc hcreat target
  rw [hopen] at heq
  obtain ⟨fOps, -, hopens⟩ :=
    vfsOpenVnode_cases (h.created hdir hc) (Set.mem_insert ..) flags
  rcases hopens with ⟨st₂, r, bs, heq₂, hr, -⟩ | ⟨st₂, file₂, bs, heq₂, hopens, hfile, -⟩
  · rw [heq₂] at heq
    exact absurd (Prod.mk.inj (Prod.mk.inj (Option.some.inj heq)).2).1 hr.ne
  · rw [heq₂] at heq
    obtain ⟨rfl, -, rfl⟩ := by simpa only [Option.some.injEq, Prod.mk.injEq] using heq
    refine ⟨v, ⟨st, st₁, _, Extends.refl h.heap, ⟨rfl, rfl, rfl, rfl⟩, hcan, hc, hopens⟩, ?_⟩
    rw [hfile]

/-- A successful `vfs_open` opens a vnode that was there, or a new one. -/
theorem vfsOpen_ok (h : Tree st T) (hcwd : cwd = 0 ∨ cwd ∈ T) (hnul : (0 : UInt8) ∉ path) {file : ℕ}
    (heq : vfsOpen st cwd (some path) flags target = some (st', 0, file)) :
    SameTree st st' ∨ oCreat flags ∧ ∃ dir ops, Asks st cwd path dir ops ∧
      Accepts (whenAsked st cwd path) dir (newName path) := by
  have hopened : ∀ {st₁ v}, Tree st₁ T → SameTree st st₁ → v ∈ T →
      vfsOpenVnode st₁ flags v = some (st', 0, file) → SameTree st st' := by
    intro st₁ v h₁ hsame hv heq
    obtain ⟨fOps, -, ⟨st₂, r, bs, heq₂, hr, -⟩ | ⟨st₂, f, bs, heq₂, hopens, -⟩⟩ :=
      vfsOpenVnode_cases h₁ hv flags
    · rw [heq₂] at heq
      exact absurd (Prod.mk.inj (Prod.mk.inj (Option.some.inj heq)).2).1 hr.ne
    · rw [heq₂] at heq
      rw [← (Prod.mk.inj (Option.some.inj heq)).1]
      exact hsame.trans hopens.same
  obtain ⟨hext, hsame⟩ := afterFind_extends h hnul cwd
  rcases found_or_missing st cwd path with ⟨v, hfind⟩ | hmissing
  · rw [vfsOpen_found hfind] at heq
    exact Or.inl (hopened (h.extend hext) hsame
      (h.resolvePath_mem hcwd ((lookupFinds_iff hnul).1 hfind).2) heq)
  have hneg : ∀ {st₁ r}, vfsOpen st cwd (some path) flags target = some (st₁, r, 0) → ¬ r < 0 := by
    intro st₁ r heq₁ hr
    rw [heq] at heq₁
    exact hr.ne (Prod.mk.inj (Prod.mk.inj (Option.some.inj heq₁)).2).1.symm
  by_cases hcreat : oCreat flags
  swap
  · obtain ⟨st₁, r, heq₁, hr, -⟩ := vfsOpen_plain h hnul hmissing hcreat target
    exact absurd hr (hneg heq₁)
  by_cases hasks : ∃ dir ops, Asks st cwd path dir ops
  swap
  · obtain ⟨st₁, r, heq₁, hr, -⟩ :=
      vfsOpen_unasked h hnul hmissing (fun dir ops ha => hasks ⟨dir, ops, ha⟩) hcreat target
    exact absurd hr (hneg heq₁)
  obtain ⟨dir, ops, ha⟩ := hasks
  by_cases hacc : Accepts (whenAsked st cwd path) dir (newName path)
  · exact Or.inr ⟨hcreat, dir, ops, ha, hacc⟩
  have hr : Refused st cwd path dir ops := ⟨ha, hacc⟩
  rw [hr.runs h hcwd hnul hcreat] at heq
  by_cases h0 : staleVnode st cwd path ops = 0
  · rw [if_pos h0] at heq
    cases heq
  · rw [if_neg h0] at heq
    obtain ⟨hext', hsame'⟩ := hr.keeps h hnul
    exact Or.inl (hopened (h.extend hext') hsame' (Refused.stale_mem h hcwd hnul h0) heq)

/-- A lookup right after a creation finds what was created exactly when `AgreesWhen` says so. -/
theorem create_lookup_agrees {s : Sys} (hs : s.Reachable) (t : ℕ) (hnul : (0 : UInt8) ∉ path) :
    (∀ st', vfsMkdir s.st (s.tasks t).cwd (some path) = (st', 0) →
      ∃ dir v, Creates s.st st' dir v (newName path) .directory ∧
        (LookupFinds st' (s.tasks t).cwd path v ↔ AgreesWhen s.st st' (s.tasks t).cwd path)) ∧
    ∀ flags target st' file,
      vfsOpen s.st (s.tasks t).cwd (some path) flags target = some (st', 0, file) →
      SameTree s.st st' ∨
        ∃ dir v, Creates s.st st' dir v (newName path) .file ∧ (st'.files file).vnode = v ∧
          (LookupFinds st' (s.tasks t).cwd path v ↔ AgreesWhen s.st st' (s.tasks t).cwd path) := by
  obtain ⟨T, hinv⟩ := hs.inv
  have h := hinv.tree
  have hcwd := hinv.cwd t
  refine ⟨fun st' heq => ?_, fun flags target st' file heq => ?_⟩
  · rcases vfsMkdir_cases h hcwd hnul with
      ⟨st₁, r, heq₁, hr, -⟩ | ⟨st₁, dir, v, heq₁, hdir, hreach, hcan, hc⟩
    · rw [heq₁] at heq
      exact absurd (Prod.mk.inj heq).2 hr.ne
    · rw [heq₁] at heq
      obtain ⟨rfl, -⟩ := Prod.mk.inj heq
      have hcreates : Creates s.st st₁ dir v (newName path) .directory :=
        ⟨s.st, st₁, [], Extends.refl h.heap, ⟨rfl, rfl, rfl, rfl⟩, hcan, hc,
          Extends.refl (h.created hdir hc).heap, nofun, rfl, rfl, rfl, rfl⟩
      have hparent : resolveParent s.st (openCwd s.st (s.tasks t).cwd path) path = .ok dir := by
        rw [openCwd, if_neg]
        · exact hreach.parent
        · rintro ⟨hlast, h0⟩
          have hcwd0 := hreach.parent
          rw [resolveParent, parentPath, hlast] at hcwd0
          exact h.ne_zero hdir ((Except.ok.inj hcwd0).symm.trans h0)
      exact ⟨dir, v, hcreates, hcreates.agrees h hcwd hnul hdir hparent⟩
  · refine (vfsOpen_ok h hcwd hnul heq).imp_right ?_
    rintro ⟨hcreat, dir, ops, ha, hacc⟩
    obtain ⟨hdir, hparent⟩ := ha.dir_mem h hcwd hnul
    obtain ⟨v, hcreates, hfile⟩ := ha.creates h hcwd hnul hacc hcreat heq
    exact ⟨dir, v, hcreates, hfile, hcreates.agrees h hcwd hnul hdir hparent⟩

/-- The directory `/a` is made right after the start. -/
theorem create_lookup_agrees_a :
    ∃ dir v, Creates Sys.blank.st (vfsMkdir Sys.blank.st (Sys.blank.tasks 0).cwd (some [47, 97])).1 dir v
        (newName [47, 97]) .directory ∧
      (LookupFinds (vfsMkdir Sys.blank.st (Sys.blank.tasks 0).cwd (some [47, 97])).1
          (Sys.blank.tasks 0).cwd [47, 97] v ↔
        AgreesWhen Sys.blank.st (vfsMkdir Sys.blank.st (Sys.blank.tasks 0).cwd (some [47, 97])).1
          (Sys.blank.tasks 0).cwd [47, 97]) :=
  (create_lookup_agrees Sys.blank_reachable 0 (by decide)).1 _ (Prod.ext rfl (by decide))

/-- In a directory that has become a mount point, `x` is made and not found. -/
theorem create_lookup_disagrees_covered :
    Sys.covered.Reachable ∧
      (vfsMkdir Sys.covered.st (Sys.covered.tasks 0).cwd (some [120])).2 = 0 ∧
      (lookupPath (vfsMkdir Sys.covered.st (Sys.covered.tasks 0).cwd (some [120])).1
        (Sys.covered.tasks 0).cwd [120]).2.1 = enoent ∧
      ¬ ∃ v, LookupFinds (vfsMkdir Sys.covered.st (Sys.covered.tasks 0).cwd (some [120])).1
        (Sys.covered.tasks 0).cwd [120] v := by
  have hcode : (lookupPath (vfsMkdir Sys.covered.st (Sys.covered.tasks 0).cwd (some [120])).1
      (Sys.covered.tasks 0).cwd [120]).2.1 = enoent := by decide
  refine ⟨Sys.covered_reachable, by decide, hcode, fun ⟨v, hfind⟩ => ?_⟩
  have hzero := congrArg Prod.fst hfind
  rw [hcode] at hzero
  exact absurd (show enoent = 0 from hzero) (by decide)

end OscKernel.Vfs
