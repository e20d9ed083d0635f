import OscKernel.VfsGrowth

/-!
# Mounting

Setting up a mount fails without any effect or makes a root vnode with an empty directory. The root of
an initramfs is a block as `alloc` returns it, so that its node is empty only if the block was clear.
-/

namespace OscKernel.Vfs

variable {st st₁ st' base : State} {T : Set ℕ} {v w m fs : ℕ} {bs : List (ℕ × ℕ)}

def ClearNode (st : State) (n : ℕ) : Prop := (st.nodes n).data = 0 ∧ (st.nodes n).numChildren = 0

instance (st : State) (n : ℕ) : Decidable (ClearNode st n) := inferInstanceAs (Decidable (_ ∧ _))

def VnodeOps.fileOps : VnodeOps → FileOps
  | .tmpfs => .tmpfs
  | .initramfs => .initramfs

structure SetUp (base st' : State) (bs : List (ℕ × ℕ)) (ops : VnodeOps) (m r n fs : ℕ) : Prop where
  extend : Extends base st' ((r, sizeofVnode) :: (n, sizeofNode) :: bs)
  mount : st'.mounts m = ⟨r, fs⟩
  vnode : (st'.vnodes r).mount = 0 ∧ (st'.vnodes r).vOps = some ops ∧
    (st'.vnodes r).fOps = some ops.fileOps ∧ (st'.vnodes r).internal = n ∧
    (st'.vnodes r).parentIsMount = true
  empty : (st'.nodes n).numChildren = 0
  directory : ops = .tmpfs → (st'.nodes n).type = .directory

theorem discard_clear (st : State) {n : ℕ} (h : (st.nodes n).data = 0) :
    tmpfsDiscardNode st n = st.free n := by
  rw [tmpfsDiscardNode, if_pos h]

/-- The root vnode of a mount and its node `n` at the end of the two `setup_mount` functions. -/
theorem setUp_made (he : Extends base st bs) (hm : Extends.Fresh base m) {n r : ℕ} {st₂ : State}
    (ops : VnodeOps) (fs : ℕ) (hext : Extends st st₁ [(n, sizeofNode)])
    (heq : st₁.alloc sizeofVnode = (st₂, r)) (hr0 : r ≠ 0) (hempty : (st₁.nodes n).numChildren = 0)
    (hdir : ops = .tmpfs → (st₁.nodes n).type = .directory) :
    SetUp base ((st₂.setMount m fun _ => ⟨r, fs⟩).setVnode r fun e =>
      { e with mount := 0, vOps := some ops, fOps := some ops.fileOps, internal := n,
               parentIsMount := true }) bs ops m r n fs := by
  have hext' := he.trans hext
  rcases State.alloc_cases hext.ok (n := sizeofVnode) (by decide) with
    ⟨st₃, heq₃, -⟩ | ⟨st₃, r₃, heq₃, -, hfresh, hext₂, -, hn₂, -, -⟩
  · exact absurd (Prod.mk.inj (heq.symm.trans heq₃)).2 hr0
  obtain ⟨rfl, rfl⟩ := Prod.mk.inj (heq.symm.trans heq₃)
  have hrfresh : Extends.Fresh base r := fun b hb => hfresh b (hext'.mem_live hb)
  have hself : ∀ f : Vnode → Vnode, ((st₂.setMount m fun _ => ⟨r, fs⟩).setVnode r f).vnodes r =
      f (st₂.vnodes r) := fun f => Function.update_self ..
  refine ⟨?_, ?_, ?_, ?_, ?_⟩
  · exact ((hext'.trans hext₂).setMount hm _).setVnode hrfresh _
  · exact Function.update_self ..
  · rw [hself]
    exact ⟨rfl, rfl, rfl, rfl, rfl⟩
  · change (st₂.nodes n).numChildren = 0
    rw [hn₂]
    exact hempty
  · intro hops
    change (st₂.nodes n).type = _
    rw [hn₂]
    exact hdir hops

/-- The common end of the two `setup_mount` functions, with the node `n` at hand. -/
theorem setUp_root (he : Extends base st bs) (hm : Extends.Fresh base m) {n : ℕ}
    (ops : VnodeOps) (fs : ℕ) (hext : Extends st st₁ [(n, sizeofNode)]) (hdata : (st₁.nodes n).data = 0)
    (hempty : (st₁.nodes n).numChildren = 0)
    (hdir : ops = .tmpfs → (st₁.nodes n).type = .directory) :
    (∃ st₂, st₁.alloc sizeofVnode = (st₂, 0) ∧
      Extends base (tmpfsDiscardNode (st₂.setMount m fun _ => ⟨0, fs⟩) n) bs) ∨
    ∃ st₂ r, st₁.alloc sizeofVnode = (st₂, r) ∧ r ≠ 0 ∧
      SetUp base ((st₂.setMount m fun _ => ⟨r, fs⟩).setVnode r fun e =>
        { e with mount := 0, vOps := some ops, fOps := some ops.fileOps, internal := n,
                 parentIsMount := true }) bs ops m r n fs := by
  have hext' := he.trans hext
  have hnfresh : Extends.Fresh base n := hext'.fresh (List.mem_cons_self ..)
  have hbs : ∀ b ∈ bs, b.1 ≠ n := by
    intro b hb
    refine hext.fresh (List.mem_cons_self ..) b ?_
    rw [he.live]
    exact List.mem_append_left _ hb
  rcases State.alloc_cases hext.ok (n := sizeofVnode) (by decide) with
    ⟨st₂, heq, hext₂⟩ | ⟨st₂, r, heq, hr0, -⟩
  · have hnode : (st₂.nodes n).data = 0 := by
      rw [hext₂.node (n, sizeofNode) (by rw [hext.live]; exact List.mem_cons_self ..)]
      exact hdata
    refine Or.inl ⟨st₂, heq, ?_⟩
    rw [discard_clear _ (by exact hnode)]
    exact ((hext'.trans hext₂).setMount hm _).free hbs hnfresh
  · exact Or.inr ⟨st₂, r, heq, hr0, setUp_made he hm ops fs hext heq hr0 hempty hdir⟩

theorem tmpfsSetupMount_cases (he : Extends base st bs) (hm : Extends.Fresh base m) (hfs : fs ≠ 0)
    (hm0 : m ≠ 0) :
    (∃ st', tmpfsSetupMount st fs m = (st', enomem) ∧ Extends base st' bs) ∨
      ∃ st' r n, tmpfsSetupMount st fs m = (st', 0) ∧ SetUp base st' bs .tmpfs m r n fs := by
  have hnull : ¬ (fs = 0 ∨ m = 0) := fun h => h.elim hfs hm0
  rcases tmpfsCreateInternalNode_cases he.ok [47] .directory 0 with
    ⟨st₁, heq, hext⟩ | ⟨st₁, n, data, heq, hn, hext, hnode, hv⟩
  · refine Or.inl ⟨st₁, ?_, he.trans hext⟩
    simp only [tmpfsSetupMount, if_neg hnull, heq, if_true]
  have hnew : st₁.nodes n = newNode [47] .directory 0 := hnode
  rcases setUp_root he hm .tmpfs fs hext (by rw [hnew]; rfl) (by rw [hnew]; rfl)
    (fun _ => by rw [hnew]; rfl) with ⟨st₂, heq₂, hfail⟩ | ⟨st₂, r, heq₂, hr0, hset⟩
  · refine Or.inl ⟨_, ?_, hfail⟩
    simp only [tmpfsSetupMount, if_neg hnull, heq, if_neg hn, heq₂, if_true]
  · refine Or.inr ⟨_, r, n, ?_, hset⟩
    simp only [tmpfsSetupMount, if_neg hnull, heq, if_neg hn, heq₂, if_neg hr0]
    rfl

theorem initramfsSetupMount_cases (he : Extends base st bs) (hm : Extends.Fresh base m)
    (hfs : fs ≠ 0) (hm0 : m ≠ 0)
    (hclear : (st.alloc sizeofNode).2 ≠ 0 → ClearNode st (st.alloc sizeofNode).2) :
    (∃ st', initramfsSetupMount st fs m = (st', enomem) ∧ Extends base st' bs) ∨
      ∃ st' r n, initramfsSetupMount st fs m = (st', 0) ∧
        SetUp base st' bs .initramfs m r n fs := by
  have hnull : ¬ (fs = 0 ∨ m = 0) := fun h => h.elim hfs hm0
  rcases State.alloc_cases he.ok (n := sizeofNode) (by decide) with
    ⟨st₁, heq, hext⟩ | ⟨st₁, n, heq, hn, -, hext, -, hn₁, -, -⟩
  · refine Or.inl ⟨st₁, ?_, he.trans hext⟩
    simp only [initramfsSetupMount, if_neg hnull, heq, if_true]
  rw [heq] at hclear
  obtain ⟨hdata, hempty⟩ := hclear hn
  rcases setUp_root he hm .initramfs fs hext (by rw [hn₁]; exact hdata)
    (by rw [hn₁]; exact hempty) nofun with ⟨st₂, heq₂, hfail⟩ | ⟨st₂, r, heq₂, hr0, hset⟩
  · refine Or.inl ⟨_, ?_, hfail⟩
    simp only [initramfsSetupMount, if_neg hnull, heq, if_neg hn, heq₂, if_true]
  · refine Or.inr ⟨_, r, n, ?_, hset⟩
    simp only [initramfsSetupMount, if_neg hnull, heq, if_neg hn, heq₂, if_neg hr0]
    rfl

theorem setupMount_cases (ops : VnodeOps) (he : Extends base st bs) (hm : Extends.Fresh base m)
    (hfs : fs ≠ 0) (hm0 : m ≠ 0)
    (hclear : ops = .initramfs → (st.alloc sizeofNode).2 ≠ 0 → ClearNode st (st.alloc sizeofNode).2) :
    (∃ st', ops.setupMount st fs m = (st', enomem) ∧ Extends base st' bs) ∨
      ∃ st' r n, ops.setupMount st fs m = (st', 0) ∧ SetUp base st' bs ops m r n fs := by
  cases ops with
  | tmpfs => exact tmpfsSetupMount_cases he hm hfs hm0
  | initramfs => exact initramfsSetupMount_cases he hm hfs hm0 (hclear rfl)

/-- The root of a new mount on `v` joins the tree. -/
theorem Tree.mounted (h : Tree st T) (hv : v ∈ T) (hroot : v ≠ st.root)
    (hmount : (st.vnodes v).mount = 0) {ops : VnodeOps} {r n : ℕ}
    (hset : SetUp (st.setVnode v fun e => { e with mount := m }) st' ((m, sizeofMount) :: bs) ops m r n
      fs) :
    Tree (st'.setVnode r fun e => { e with parent := v }) (Insert.insert r T) := by
  have hext := hset.extend
  have hrfresh := hext.fresh (List.mem_cons_self ..)
  have hnfresh := hext.fresh (p := n) (n := sizeofNode) (by simp)
  have hrv : r ≠ v := fun heq => hrfresh _ (h.vnode v hv) heq.symm
  set st₅ := st'.setVnode r fun e => { e with parent := v }
  have h₅ := hext.setVnode hrfresh fun e => { e with parent := v }
  -- Without the mount on `v` the new state only has more blocks.
  have h₆ := h₅.setVnode_both (h.vnode v hv) fun e => { e with mount := 0 }
  rw [st.setVnode_undo v (by rw [← hmount])] at h₆
  have hvv : st₅.vnodes v = { st.vnodes v with mount := m } := by
    rw [h₅.vnode _ (h.vnode v hv)]
    exact State.vnodes_setVnode_self ..
  have hrr : (st₅.setVnode v fun e => { e with mount := 0 }).vnodes r =
      { st'.vnodes r with parent := v } := by
    rw [State.vnodes_setVnode_of_ne _ _ hrv]
    exact State.vnodes_setVnode_self ..
  have hlive : ∀ b ∈ (r, sizeofVnode) :: (n, sizeofNode) :: (m, sizeofMount) :: bs,
      b ∈ (st₅.setVnode v fun e => { e with mount := 0 }).heap.live := by
    intro b hb
    rw [h₆.live]
    exact List.mem_append_left _ hb
  obtain ⟨hrm, hrops, hrfops, hrn, -⟩ := hset.vnode
  have h₇ : Tree (st₅.setVnode v fun e => { e with mount := 0 }) (Insert.insert r T) := by
    refine (h.extend h₆).insert (hlive _ (List.mem_cons_self ..)) ?_ ?_ ?_ ?_ ?_ ?_ ?_ ?_
    · rw [hrr]
      change ((st'.vnodes r).internal, _) ∈ _
      rw [hrn]
      exact hlive (n, sizeofNode) (by simp)
    · intro w hw
      rw [hrr, h₆.vnode _ (h.vnode w hw)]
      change _ ≠ (st'.vnodes r).internal
      rw [hrn]
      exact hnfresh _ (h.node w hw)
    · rw [hrr]
      change (st'.vnodes r).vOps ≠ none
      rw [hrops]
      exact nofun
    · rw [hrr]
      change (st'.vnodes r).fOps ≠ none ∧ ((st'.vnodes r).fOps = _ → (st'.vnodes r).vOps = _)
      rw [hrfops, hrops]
      refine ⟨nofun, ?_⟩
      cases ops <;> simp [VnodeOps.fileOps]
    · rw [hrr]
      exact hv
    · rw [State.internal, hrr]
      change (st'.nodes (st'.vnodes r).internal).numChildren = 0
      rw [hrn]
      exact hset.empty
    · rw [hrr]
      exact fun hne => absurd hrm hne
    · rintro ⟨hfops, hftype⟩
      rw [hrr] at hfops
      have hops : ops = .tmpfs := Option.some.inj (hrops.symm.trans hfops)
      rw [State.internal, hrr] at hftype
      change (st'.nodes (st'.vnodes r).internal).type = .file at hftype
      rw [hrn, hset.directory hops] at hftype
      cases hftype
  have hfinal : (st₅.setVnode v fun e => { e with mount := 0 }).setVnode v
      (fun e => { e with mount := m }) = st₅ := by
    apply State.setVnode_undo
    rw [hvv]
  rw [← hfinal]
  have hvm : (st₅.setVnode v fun e => { e with mount := 0 }).vnodes v = st.vnodes v :=
    h₆.vnode _ (h.vnode v hv)
  refine h₇.setVnode rfl rfl rfl rfl (h₇.fOps v (Or.inr hv)) ?_ ?_
  · intro heq
    refine absurd ?_ hroot
    rw [heq, State.root, State.root, h₆.rootfs]
    exact congrArg Mount.root (h₆.mount _ h.rootfs)
  · intro _
    refine ⟨hlive (m, sizeofMount) (by simp), Or.inl ?_⟩
    exact congrArg Mount.root hset.mount

/-- A mount of a file system with the operations `ops` on `v`: the structure `m` and the root `r`. -/
structure Mounted (st st' : State) (v m r n fs : ℕ) (ops : VnodeOps) : Prop where
  made : ∃ st₁, SetUp (st.setVnode v fun e => { e with mount := m }) st₁ [(m, sizeofMount)] ops m r n fs ∧
    st' = st₁.setVnode r fun e => { e with parent := v }

structure MountFrame (st st' : State) (T : Set ℕ) (d m r : ℕ) : Prop where
  fresh : r ∉ T
  root : st'.root = st.root
  self : st'.vnodes d = { st.vnodes d with mount := m }
  vnode : ∀ w ∈ T, w ≠ d → st'.vnodes w = st.vnodes w
  internal : ∀ w ∈ T, st'.internal w = st.internal w
  mounts : ∀ w ∈ T, (st.vnodes w).mount ≠ 0 →
    (st'.mounts (st.vnodes w).mount).root = (st.mounts (st.vnodes w).mount).root
  mountRoot : (st'.mounts m).root = r
  new : (st'.vnodes r).mount = 0 ∧ (st'.vnodes r).parent = d ∧ (st'.vnodes r).parentIsMount = true
  empty : (st'.internal r).numChildren = 0
  live : ∀ b ∈ st.heap.live, b ∈ st'.heap.live
  mem : st'.mem = st.mem

theorem Mounted.frame (h : Tree st T) {d r n : ℕ} {ops : VnodeOps} (hd : d ∈ T)
    (hm : Mounted st st' d m r n fs ops) : MountFrame st st' T d m r := by
  obtain ⟨st₁, hset, rfl⟩ := hm
  have hrfresh := hset.extend.fresh (List.mem_cons_self ..)
  have hext := hset.extend.setVnode hrfresh fun e => { e with parent := d }
  obtain ⟨hrm, -, -, hrn, hrp⟩ := hset.vnode
  have hself : (st₁.setVnode r fun e => { e with parent := d }).vnodes d =
      { st.vnodes d with mount := m } := by
    rw [hext.vnode _ (h.vnode d hd), State.vnodes_setVnode_self]
  have hother : ∀ w ∈ T, w ≠ d →
      (st₁.setVnode r fun e => { e with parent := d }).vnodes w = st.vnodes w := by
    intro w hw hne
    rw [hext.vnode _ (h.vnode w hw), State.vnodes_setVnode_of_ne _ _ hne]
  have hint : ∀ w ∈ T, ((st₁.setVnode r fun e => { e with parent := d }).vnodes w).internal =
      (st.vnodes w).internal := by
    intro w hw
    by_cases hwd : w = d
    · rw [hwd, hself]
    · rw [hother w hw hwd]
  have hnew : (st₁.setVnode r fun e => { e with parent := d }).vnodes r =
      { st₁.vnodes r with parent := d } := State.vnodes_setVnode_self ..
  refine ⟨fun hin => hrfresh _ (h.vnode r hin) rfl, ?_, hself, hother, fun w hw => ?_, fun w hw hwm => ?_,
    congrArg Mount.root hset.mount, ?_, ?_, fun b hb => hext.mem_live hb, hext.mem⟩
  · rw [State.root, State.root, hext.rootfs]
    exact congrArg Mount.root (hext.mount _ h.rootfs)
  · rw [State.internal, hint w hw]
    exact hext.node _ (h.node w hw)
  · exact congrArg Mount.root (hext.mount _ (h.mount w hw hwm).1)
  · rw [hnew]
    exact ⟨hrm, rfl, hrp⟩
  · rw [State.internal, hnew]
    change (st₁.nodes (st₁.vnodes r).internal).numChildren = 0
    rw [hrn]
    exact hset.empty

theorem Mounted.kept (h : Tree st T) (hv : v ∈ T) (hmount : (st.vnodes v).mount = 0)
    (hplain : (st.vnodes v).parentIsMount = false) {r n : ℕ} {ops : VnodeOps}
    (hm : Mounted st st' v m r n fs ops) : MountsKept st st' T (Insert.insert r T) := by
  obtain ⟨st₁, hset, rfl⟩ := hm
  have hrfresh := hset.extend.fresh (List.mem_cons_self ..)
  have hext := hset.extend.setVnode hrfresh fun e => { e with parent := v }
  have hold : ∀ w ∈ T, w ≠ v → (st₁.setVnode r fun e => { e with parent := v }).vnodes w = st.vnodes w := by
    intro w hw hne
    rw [hext.vnode _ (h.vnode w hw), State.vnodes_setVnode_of_ne _ _ hne]
  have hself : (st₁.setVnode r fun e => { e with parent := v }).vnodes v =
      { st.vnodes v with mount := m } := by
    rw [hext.vnode _ (h.vnode v hv), State.vnodes_setVnode_self]
  refine ⟨fun w hw => ?_, fun w hw hwm => ?_, fun w hw htype => ?_, ?_, fun hr => ?_⟩
  · by_cases hwv : w = v
    · rw [hwv, hself]
      exact ⟨rfl, rfl⟩
    · rw [hold w hw hwv]
      exact ⟨rfl, rfl⟩
  · have hwv : w ≠ v := by
      rintro rfl
      exact hwm hmount
    rw [hold w hw hwv, hext.mount _ (h.mount w hw hwm).1]
    exact ⟨rfl, rfl⟩
  · have hint : ((st₁.setVnode r fun e => { e with parent := v }).vnodes w).internal =
        (st.vnodes w).internal := by
      by_cases hwv : w = v
      · rw [hwv, hself]
      · rw [hold w hw hwv]
    rw [State.internal, hint, hext.node _ (h.node w hw)]
    exact htype
  · rw [hext.filesystems]
    exact ⟨List.prefix_rfl, fun f hf => hext.fs _ (h.fs f hf).1⟩
  · -- Without the mount on `v` the new root is a vnode below it as any other.
    have hback := hext.setVnode_both (h.vnode v hv) fun e => { e with mount := 0 }
    rw [st.setVnode_undo v (by rw [← hmount])] at hback
    have hrv : r ≠ v := fun heq => hrfresh _ (h.vnode v hv) heq.symm
    have hrT : r ∉ T := fun hin => hrfresh _ (h.vnode r hin) rfl
    have hrr : ((st₁.setVnode r fun e => { e with parent := v }).setVnode v fun e =>
        { e with mount := 0 }).vnodes r = { st₁.vnodes r with parent := v } := by
      rw [State.vnodes_setVnode_of_ne _ _ hrv, State.vnodes_setVnode_self]
    have hins : Hierarchy ((st₁.setVnode r fun e => { e with parent := v }).setVnode v fun e =>
        { e with mount := 0 }) (Insert.insert r T) := by
      refine (hr.extend h hback).insert (h.extend hback) hv hrT ?_ ?_ (Or.inl ?_)
      · rw [hrr]
      · rw [State.internal, hrr]
        change (st₁.nodes (st₁.vnodes r).internal).numChildren = 0
        rw [hset.vnode.2.2.2.1]
        exact hset.empty
      · rw [hrr]
        exact hset.vnode.1
    have hvv : ((st₁.setVnode r fun e => { e with parent := v }).setVnode v fun e =>
        { e with mount := 0 }).vnodes v = st.vnodes v := hback.vnode _ (h.vnode v hv)
    have hrroot : r ≠ ((st₁.setVnode r fun e => { e with parent := v }).setVnode v fun e =>
        { e with mount := 0 }).root := by
      intro heq
      refine hrT ?_
      rw [heq, State.root, hback.rootfs]
      exact (congrArg Mount.root (hback.mount _ h.rootfs)).symm ▸ h.root
    have hmounted := hins.setMount (v := v) (m := m) hrv hrroot ?_ ?_ ?_ ?_
    · rwa [State.setVnode_undo _ v (by rw [hself])] at hmounted
    · rw [hvv]
      exact hmount
    · rw [hvv]
      exact hplain
    · exact congrArg Mount.root hset.mount
    · rw [hrr]
      exact ⟨hset.vnode.1, hset.vnode.2.2.2.2, rfl⟩

theorem Mounted.grows (h : Tree st T) (hv : v ∈ T) (hroot : v ≠ st.root)
    (hmount : (st.vnodes v).mount = 0) (hplain : (st.vnodes v).parentIsMount = false) {r n : ℕ}
    {ops : VnodeOps} (hm : Mounted st st' v m r n fs ops) : Grows st st' T (Insert.insert r T) := by
  have hkept := hm.kept h hv hmount hplain
  obtain ⟨st₁, hset, rfl⟩ := hm
  have hrfresh := hset.extend.fresh (List.mem_cons_self ..)
  have hext := hset.extend.setVnode hrfresh fun e => { e with parent := v }
  refine ⟨h.mounted hv hroot hmount hset, Set.subset_insert r T, ?_, ?_, ?_, hkept⟩
  · rw [State.root, State.root, hext.rootfs]
    exact congrArg Mount.root (hext.mount _ h.rootfs)
  · intro w hw
    rw [hext.vnode _ (h.vnode w hw)]
    by_cases hwv : w = v
    · rw [hwv, State.vnodes_setVnode_self]
    · rw [State.vnodes_setVnode_of_ne _ _ hwv]
  · intro p hp
    rw [hext.file _ hp]
    exact ⟨hext.mem_live hp, rfl, rfl⟩

def findFilesystem (st : State) (name : List UInt8) : Option ℕ :=
  st.filesystems.find? fun f => (st.fsTable f).name = name

def mountNode (st : State) (path : List UInt8) : ℕ :=
  (((afterLookup st path).alloc sizeofMount).1.alloc sizeofNode).2

/-- What a mount of the file system with this name needs of that block: the node that
`initramfs_setup_mount` does not fill in is clear. -/
def RootClear (st : State) (path name : List UInt8) : Prop :=
  ∀ f ∈ findFilesystem st name, (st.fsTable f).setupMount = some .initramfs →
    mountNode st path ≠ 0 → ClearNode st (mountNode st path)

theorem alloc_fresh (hok : st.heap.Ok) (n : ℕ) :
    Extends.Fresh st (st.alloc n).2 ∧ ∃ bs, Extends st (st.alloc n).1 bs := by
  rcases State.alloc_extends hok n with ⟨st', heq, hext⟩ | ⟨st', p, heq, -, hfresh, hext, -⟩
  · rw [heq]
    exact ⟨fun b hb => (hok.start_pos b hb).ne', [], hext⟩
  · rw [heq]
    exact ⟨hfresh, _, hext⟩

theorem afterLookup_fresh (hok : st.heap.Ok) (path : List UInt8) : Extends st (afterLookup st path) [] := by
  by_cases hcopy : CopyOk st path
  · exact afterLookup_extends hok hcopy
  · have h0 : (strdup st path).2 = 0 := not_not.1 hcopy
    rw [afterLookup, h0]
    exact (strdup_extends hok hcopy).free_null

theorem mountNode_fresh (hok : st.heap.Ok) (path : List UInt8) : Extends.Fresh st (mountNode st path) := by
  have hext := afterLookup_fresh hok path
  obtain ⟨-, bs, hmount⟩ := alloc_fresh hext.ok sizeofMount
  obtain ⟨hnode, -⟩ := alloc_fresh hmount.ok sizeofNode
  exact fun b hb => hnode b (hmount.mem_live (hext.mem_live hb))

/-- A vnode that may be a mount point: it runs out of memory, or mounts. -/
theorem mountVnode_cases (h : Tree st T) (he : Extends st st₁ []) (hsame : SameTree st st₁) (hv : v ∈ T)
    (hmount : (st.vnodes v).mount = 0) (hfs : fs ∈ st.filesystems) {ops : VnodeOps}
    (hops : (st.fsTable fs).setupMount = some ops)
    (hclear : ops = .initramfs → ((st₁.alloc sizeofMount).1.alloc sizeofNode).2 ≠ 0 →
      ClearNode st ((st₁.alloc sizeofMount).1.alloc sizeofNode).2) :
    (∃ st', mountVnode st₁ v fs = (st', enomem) ∧ Extends st st' []) ∨
      ∃ st' m r n, mountVnode st₁ v fs = (st', 0) ∧ m ≠ 0 ∧ Mounted st st' v m r n fs ops := by
  rcases State.alloc_cases he.ok (n := sizeofMount) (by decide) with
    ⟨st₂, heq, hext⟩ | ⟨st₂, m, heq, hm, hfresh, hext, hv₂, hn₂, -, -⟩
  · refine Or.inl ⟨st₂, ?_, he.trans hext⟩
    simp only [mountVnode, heq, if_true]
  have hmfresh : Extends.Fresh st m := fun b hb => hfresh b (he.mem_live hb)
  have hext₃ := (he.trans hext).setMount hmfresh fun _ => { root := 0, fs := fs }
  have hext₄ := hext₃.setVnode_both (h.vnode v hv) fun e => { e with mount := m }
  have hops₄ : (((st₂.setMount m fun _ => { root := 0, fs := fs }).setVnode v fun e =>
      { e with mount := m }).fsTable fs).setupMount = some ops := by
    rw [← hops]
    exact congrArg Filesystem.setupMount ((he.trans hext).fs _ (h.fs fs hfs).1)
  have hfs0 : fs ≠ 0 := (h.heap.start_pos _ (h.fs fs hfs).1).ne'
  have hclear₄ : ops = .initramfs → (st₂.alloc sizeofNode).2 ≠ 0 → ClearNode ((st₂.setMount m fun _ =>
      { root := 0, fs := fs }).setVnode v fun e => { e with mount := m }) (st₂.alloc sizeofNode).2 := by
    intro hi hne
    have hnodes : st₂.nodes = st.nodes := hn₂.trans hsame.nodes
    have hst := hclear hi
    rw [heq] at hst
    replace hst := hst hne
    change (st₂.nodes _).data = 0 ∧ (st₂.nodes _).numChildren = 0
    rw [hnodes]
    exact hst
  rcases setupMount_cases ops hext₄ hmfresh hfs0 hm hclear₄ with
    ⟨st₅, heq₅, hext₅⟩ | ⟨st₅, r, n, heq₅, hset⟩
  · refine Or.inl ⟨(st₅.setVnode v fun e => { e with mount := 0 }).free m, ?_, ?_⟩
    · simp only [mountVnode, heq, if_neg hm, hops₄, heq₅]
      rfl
    · have hback := hext₅.setVnode_both (h.vnode v hv) fun e => { e with mount := 0 }
      rw [st.setVnode_undo v (by rw [← hmount])] at hback
      exact hback.free (fun _ hb => absurd hb List.not_mem_nil) hmfresh
  · refine Or.inr ⟨st₅.setVnode r fun e => { e with parent := v }, m, r, n, ?_, hm, st₅, hset, rfl⟩
    simp only [mountVnode, heq, if_neg hm, hops₄, heq₅, if_neg (not_not.2 rfl), hset.mount]

/-- `vfs_mount` fails without an effect or mounts a file system on the vnode of the path. -/
theorem vfsMount_cases (h : Tree st T) {cwd : ℕ} {path name : List UInt8} (hcwd : cwd = 0 ∨ cwd ∈ T)
    (hnul : (0 : UInt8) ∉ path) (hready : RootClear st path name) :
    (∃ st' r, vfsMount st cwd (some path) (some name) = (st', r) ∧ r < 0 ∧ Extends st st' []) ∨
      ∃ st' v m r n fs ops, vfsMount st cwd (some path) (some name) = (st', 0) ∧
        findFilesystem st name = some fs ∧ (st.fsTable fs).setupMount = some ops ∧
        resolvePath st cwd path = .ok v ∧ (st.vnodes v).mount = 0 ∧
        (st.vnodes v).parentIsMount = false ∧ m ≠ 0 ∧ Mounted st st' v m r n fs ops := by
  cases hfind : findFilesystem st name with
  | none =>
      refine Or.inl ⟨st, enodev, ?_, by decide, Extends.refl h.heap⟩
      rw [findFilesystem] at hfind
      simp only [vfsMount, hfind]
  | some fs =>
      have hfs : fs ∈ st.filesystems := List.mem_of_find?_eq_some hfind
      obtain ⟨ops, hops⟩ := Option.ne_none_iff_exists'.1 (h.fs fs hfs).2
      have hclear : ops = .initramfs → mountNode st path ≠ 0 → ClearNode st (mountNode st path) := by
        rintro rfl
        exact hready fs hfind hops
      have hfind' := hfind
      rw [findFilesystem] at hfind'
      obtain ⟨hext, hsame⟩ := lookupPath_extends h.heap hnul cwd
      by_cases hcopy : CopyOk st path
      swap
      · rw [lookupPath_no_copy hcopy] at hext
        refine Or.inl ⟨_, enomem, ?_, by decide, hext⟩
        simp only [vfsMount, hfind', lookupPath_no_copy hcopy]
        rfl
      have hspec := lookupPath_spec hnul hcopy cwd
      rw [hspec] at hext hsame
      cases hres : resolvePath st cwd path with
      | error c =>
          have hc := resolvePath_error hres
          refine Or.inl ⟨_, c, ?_, hc, hext⟩
          simp only [vfsMount, hfind', hspec, hres, code, if_pos hc.ne]
      | ok v =>
          have hv := h.resolvePath_mem hcwd hres
          have hvops : ¬ ((afterLookup st path).vnodes v).vOps = none := h.vOps v hv
          by_cases hbusy : ((afterLookup st path).vnodes v).mount ≠ 0 ∨
              ((afterLookup st path).vnodes v).parentIsMount = true
          · refine Or.inl ⟨_, ebusy, ?_, by decide, hext⟩
            simp only [vfsMount, hfind', hspec, hres, code, leftoverPath_of_ok hres,
              if_neg (not_not.2 rfl), if_neg hvops, if_pos hbusy]
          · have hbusy' := hbusy
            rw [not_or] at hbusy'
            have hmount : (st.vnodes v).mount = 0 := not_not.1 hbusy'.1
            have hparent : (st.vnodes v).parentIsMount = false := Bool.eq_false_iff.2 hbusy'.2
            have hcases := mountVnode_cases h hext hsame hv hmount hfs hops hclear
            simp only [vfsMount, hfind', hspec, hres, code, leftoverPath_of_ok hres,
              if_neg (not_not.2 rfl), if_neg hvops, if_neg hbusy]
            rcases hcases with ⟨st', heq, hext'⟩ | ⟨st', m, r, n, heq, hm, hmounted⟩
            · exact Or.inl ⟨st', enomem, heq, by decide, hext'⟩
            · exact Or.inr ⟨st', v, m, r, n, fs, ops, heq, rfl, hops, rfl, hmount, hparent, hm, hmounted⟩

theorem Tree.setMem (h : Tree st T) (mem : ByteMem) : Tree { st with mem := mem } T :=
  ⟨h.heap, h.rootfs, h.root, h.rootMount, h.vnode, h.node, h.node_inj, h.vOps, h.fOps, h.parent,
    h.child, h.mount, h.data, h.data_inj, h.fs⟩

theorem Extends.setMem (h : Extends st st' bs) (mem : ByteMem) :
    Extends { st with mem := mem } { st' with mem := mem } bs :=
  ⟨h.ok, h.live, h.vnode, h.node, h.mount, h.file, h.fs, rfl, h.filesystems, h.rootfs⟩

theorem registerBackend_grows (h : Tree st T) {name : List UInt8} {ops : VnodeOps}
    (hreg : registerBackend st name ops = some st') : Grows st st' T T := by
  rw [registerBackend] at hreg
  rcases State.alloc_cases h.heap (n := sizeofFilesystem) (by decide) with
    ⟨st₁, heq, -⟩ | ⟨st₁, f, heq, hf, hfresh, hext, -⟩
  · simp only [heq, if_true] at hreg
    cases hreg
  simp only [heq, if_neg hf] at hreg
  have hst := Option.some.inj hreg
  have hext₁ : Extends st { st₁ with fsTable := Function.update st₁.fsTable f ⟨name, some ops⟩ }
      [(f, sizeofFilesystem)] :=
    { hext with fs := fun b hb => (Function.update_of_ne (hfresh b hb) _ _).trans (hext.fs b hb) }
  have hg := Grows.extend h hext₁
  simp only [registerFilesystem, if_neg hf] at hst
  split_ifs at hst
  · exact hst ▸ hg
  · subst hst
    refine ⟨?_, hg.subset, hg.root, hg.vOps, hg.handle, { hg.mounts with registered := ?_, hierarchy := ?_ }⟩
    rotate_left
    · refine ⟨?_, hg.mounts.registered.2⟩
      rw [show st.filesystems = st₁.filesystems from hext.filesystems.symm]
      exact List.prefix_append _ _
    · intro hr
      obtain ⟨hroot, hplain, hheir, hchild, hrank⟩ := hg.mounts.hierarchy hr
      exact ⟨hroot, hplain, hheir, hchild, hrank⟩
    refine { hg.tree with fs := fun g hg' => ?_ }
    rcases List.mem_append.1 hg' with hg' | hg'
    · exact hg.tree.fs g hg'
    · rw [List.mem_singleton.1 hg']
      refine ⟨?_, ?_⟩
      · change (f, sizeofFilesystem) ∈ st₁.heap.live
        rw [hext.live]
        exact List.mem_cons_self ..
      · change (Function.update st₁.fsTable f _ f).setupMount ≠ none
        rw [Function.update_self]
        exact nofun
  · exact hst ▸ hg

/-- A registration changes no vnode and no block in use. -/
theorem registerBackend_keeps (hok : st.heap.Ok) {name : List UInt8} {ops : VnodeOps}
    (hreg : registerBackend st name ops = some st') :
    SameTree st st' ∧ (∀ b ∈ st.heap.live, b ∈ st'.heap.live) ∧ st'.mem = st.mem := by
  rw [registerBackend] at hreg
  rcases State.alloc_cases hok (n := sizeofFilesystem) (by decide) with
    ⟨st₁, heq, -⟩ | ⟨st₁, f, heq, hf, -, hext, hv, hn, hm, -⟩
  · simp only [heq, if_true] at hreg
    cases hreg
  simp only [heq, if_neg hf] at hreg
  have hst := Option.some.inj hreg
  have hlive : ∀ b ∈ st.heap.live, b ∈ st₁.heap.live := fun b hb => hext.mem_live hb
  simp only [registerFilesystem, if_neg hf] at hst
  split_ifs at hst <;> subst hst <;> exact ⟨⟨hv, hn, hm, hext.rootfs⟩, hlive, hext.mem⟩

end OscKernel.Vfs
