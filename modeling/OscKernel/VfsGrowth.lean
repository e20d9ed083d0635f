import OscKernel.VfsTree

/-!
# Growth of the tree

`Hierarchy st T` says how parents, children and mounts of the vnodes `T` hang together. A call adds
vnodes to the tree, keeps the hierarchy, and changes neither where the other vnodes are nor what is
mounted on them.
-/

namespace OscKernel.Vfs

variable {st st' : State} {T : Set ℕ} {v w : ℕ} {name : List UInt8} {bs : List (ℕ × ℕ)}

/-- The vnodes that share a mount are the vnode it is on and those that have been made below it. Neither
these nor a child is the root of a mount, and parents come before their children. -/
structure Hierarchy (st : State) (T : Set ℕ) : Prop where
  mountRoot : ∀ v ∈ T, (st.vnodes v).mount ≠ 0 → (st.mounts (st.vnodes v).mount).root ≠ st.root ∧
    (st.vnodes (st.mounts (st.vnodes v).mount).root).mount = 0 ∧
      (st.vnodes (st.mounts (st.vnodes v).mount).root).parentIsMount = true
  plain : ∀ v ∈ T, (st.vnodes v).mount ≠ 0 → (st.vnodes v).parentIsMount = false
  heir : ∀ v ∈ T, (st.vnodes v).mount ≠ 0 →
    (st.vnodes (st.mounts (st.vnodes v).mount).root).parent = v ∨
      (st.vnodes (st.vnodes v).parent).mount = (st.vnodes v).mount
  child : ∀ v ∈ T, ∀ i < (st.internal v).numChildren,
    (st.vnodes ((st.internal v).children i)).parent = v ∧
      (st.vnodes ((st.internal v).children i)).parentIsMount = false
  rank : ∃ rank : ℕ → ℕ, ∀ v ∈ T, v ≠ st.root → rank (st.vnodes v).parent < rank v

structure SameShape (n n' : Node) : Prop where
  type : n'.type = n.type
  children : n'.children = n.children
  numChildren : n'.numChildren = n.numChildren

theorem SameShape.refl (n : Node) : SameShape n n := ⟨rfl, rfl, rfl⟩

theorem sameShape_update {nodes : ℕ → Node} {n : ℕ} {r : Node} (hr : SameShape (nodes n) r) (k : ℕ) :
    SameShape (nodes k) (Function.update nodes n r k) := by
  by_cases hk : k = n
  · rw [hk, Function.update_self]
    exact hr
  · rw [Function.update_of_ne hk]
    exact SameShape.refl _

namespace Hierarchy

/-- Only the places of the vnodes of `T` in the tree matter. -/
theorem congr (h : Hierarchy st T) (ht : Tree st T)
    (hv : ∀ v ∈ T, (st'.vnodes v).mount = (st.vnodes v).mount ∧
      (st'.vnodes v).parent = (st.vnodes v).parent ∧
      (st'.vnodes v).parentIsMount = (st.vnodes v).parentIsMount)
    (hm : ∀ v ∈ T, (st.vnodes v).mount ≠ 0 →
      (st'.mounts (st.vnodes v).mount).root = (st.mounts (st.vnodes v).mount).root)
    (hn : ∀ v ∈ T, (st'.internal v).children = (st.internal v).children ∧
      (st'.internal v).numChildren = (st.internal v).numChildren)
    (hroot : st'.root = st.root) : Hierarchy st' T where
  mountRoot v hin hne := by
    rw [(hv v hin).1] at hne ⊢
    have hin' := (ht.mount v hin hne).2
    rw [hm v hin hne, (hv _ hin').1, (hv _ hin').2.2, hroot]
    exact h.mountRoot v hin hne
  plain v hin hne := by
    rw [(hv v hin).1] at hne
    rw [(hv v hin).2.2]
    exact h.plain v hin hne
  heir v hin hne := by
    rw [(hv v hin).1] at hne ⊢
    have hne' : v ≠ st.root := by
      rintro rfl
      exact hne ht.rootMount.1
    rw [hm v hin hne, (hv _ (ht.mount v hin hne).2).2.1, (hv v hin).2.1, (hv _ (ht.parent v hin hne')).1]
    exact h.heir v hin hne
  child v hin i hi := by
    rw [(hn v hin).2] at hi
    have hin' := ht.child v hin i hi
    rw [(hn v hin).1, (hv _ hin').2.1, (hv _ hin').2.2]
    exact h.child v hin i hi
  rank := by
    obtain ⟨rank, hrank⟩ := h.rank
    refine ⟨rank, fun v hin hne => ?_⟩
    rw [hroot] at hne
    rw [(hv v hin).2.1]
    exact hrank v hin hne

theorem setFOps (h : Hierarchy st T) (ht : Tree st T) (v : ℕ) (ops : FileOps) :
    Hierarchy (st.setVnode v fun e => { e with fOps := some ops }) T := by
  refine h.congr ht (fun w _ => ?_) (fun _ _ _ => rfl) (fun w _ => ?_) rfl
  · rw [State.vnodes_setFOps]
    exact ⟨rfl, rfl, rfl⟩
  · rw [State.internal, State.vnodes_setFOps]
    exact ⟨rfl, rfl⟩

theorem extend (h : Hierarchy st T) (ht : Tree st T) (he : Extends st st' bs) : Hierarchy st' T := by
  refine h.congr ht (fun v hv => ?_) (fun v hv hm => ?_) (fun v hv => ?_) ?_
  · rw [he.vnode _ (ht.vnode v hv)]
    exact ⟨rfl, rfl, rfl⟩
  · rw [he.mount _ (ht.mount v hv hm).1]
  · rw [State.internal, he.vnode _ (ht.vnode v hv), he.node _ (ht.node v hv)]
    exact ⟨rfl, rfl⟩
  · rw [State.root, State.root, he.rootfs]
    exact congrArg Mount.root (he.mount _ ht.rootfs)

/-- A new vnode below `dir`. -/
theorem insert (h : Hierarchy st T) (ht : Tree st T) {dir : ℕ} (hd : dir ∈ T) (hv : v ∉ T)
    (hparent : (st.vnodes v).parent = dir) (hempty : (st.internal v).numChildren = 0)
    (hmount : (st.vnodes v).mount = 0 ∨
      (st.vnodes v).mount = (st.vnodes dir).mount ∧ (st.vnodes v).parentIsMount = false) :
    Hierarchy st (Insert.insert v T) where
  mountRoot := by
    rintro w (rfl | hw) hne
    · have heq := (hmount.resolve_left hne).1
      rw [heq] at hne ⊢
      exact h.mountRoot dir hd hne
    · exact h.mountRoot w hw hne
  plain := by
    rintro w (rfl | hw) hne
    · exact (hmount.resolve_left hne).2
    · exact h.plain w hw hne
  heir := by
    rintro w (rfl | hw) hne
    · rw [hparent]
      exact Or.inr (hmount.resolve_left hne).1.symm
    · exact h.heir w hw hne
  child := by
    rintro w (rfl | hw) i hi
    · rw [hempty] at hi
      omega
    · exact h.child w hw i hi
  rank := by
    obtain ⟨rank, hrank⟩ := h.rank
    refine ⟨Function.update rank v (rank dir + 1), ?_⟩
    have hother : ∀ w ∈ T, Function.update rank v (rank dir + 1) w = rank w := by
      intro w hw
      exact Function.update_of_ne (by rintro rfl; exact hv hw) _ _
    rintro w (rfl | hw) hne
    · rw [hparent, hother dir hd, Function.update_self]
      exact Nat.lt_succ_self _
    · rw [hother _ (ht.parent w hw hne), hother w hw]
      exact hrank w hw hne

/-- A vnode becomes a child of its parent. -/
theorem append (h : Hierarchy st T) {dir : ℕ}
    (hinj : ∀ w ∈ T, (st.vnodes w).internal = (st.vnodes dir).internal → w = dir)
    (hparent : (st.vnodes v).parent = dir) (hplain : (st.vnodes v).parentIsMount = false) :
    Hierarchy (st.setNode (st.vnodes dir).internal (·.append v)) T where
  mountRoot := h.mountRoot
  plain := h.plain
  heir := h.heir
  child w hw i hi := by
    change (st.vnodes _).parent = w ∧ (st.vnodes _).parentIsMount = false
    by_cases hne : w = dir
    · subst hne
      rw [State.internal_setNode_self] at hi ⊢
      change i < (st.internal w).numChildren + 1 at hi
      change (st.vnodes (Function.update (st.internal w).children (st.internal w).numChildren v i)).parent = w ∧
        (st.vnodes (Function.update (st.internal w).children (st.internal w).numChildren v i)).parentIsMount = false
      by_cases hlast : i = (st.internal w).numChildren
      · rw [hlast, Function.update_self]
        exact ⟨hparent, hplain⟩
      · rw [Function.update_of_ne hlast]
        exact h.child w hw i (by omega)
    · rw [State.internal_setNode_of_ne _ _ fun heq => hne (hinj w hw heq)] at hi ⊢
      exact h.child w hw i hi
  rank := h.rank

/-- A mount on a vnode without one, when its root `r` is there already. -/
theorem setMount (h : Hierarchy st T) {r m : ℕ} (hne : r ≠ v) (hrr : r ≠ st.root)
    (hmount : (st.vnodes v).mount = 0)
    (hplain : (st.vnodes v).parentIsMount = false) (hm : (st.mounts m).root = r)
    (hrm : (st.vnodes r).mount = 0 ∧ (st.vnodes r).parentIsMount = true ∧ (st.vnodes r).parent = v) :
    Hierarchy (st.setVnode v fun e => { e with mount := m }) T := by
  obtain ⟨st', hst⟩ : ∃ st', st' = st.setVnode v fun e => { e with mount := m } := ⟨_, rfl⟩
  have hmounts : st'.mounts = st.mounts := by
    rw [hst]
    rfl
  have hnodes : st'.nodes = st.nodes := by
    rw [hst]
    rfl
  have hroot : st'.root = st.root := by
    rw [hst]
    rfl
  have hself : st'.vnodes v = { st.vnodes v with mount := m } := by
    rw [hst]
    exact State.vnodes_setVnode_self ..
  have hother : ∀ w, w ≠ v → st'.vnodes w = st.vnodes w := by
    intro w hw
    rw [hst]
    exact State.vnodes_setVnode_of_ne _ _ hw
  have hplace : ∀ w, (st'.vnodes w).parent = (st.vnodes w).parent ∧
      (st'.vnodes w).parentIsMount = (st.vnodes w).parentIsMount ∧ st'.internal w = st.internal w := by
    intro w
    rw [State.internal, State.internal, hnodes]
    by_cases hw : w = v
    · rw [hw, hself]
      exact ⟨rfl, rfl, rfl⟩
    · rw [hother w hw]
      exact ⟨rfl, rfl, rfl⟩
  rw [← hst]
  refine ⟨?_, ?_, ?_, ?_, ?_⟩
  · intro w hw hwm
    rw [hmounts, hroot]
    by_cases hwv : w = v
    · rw [hwv, hself, hm, hother r hne]
      exact ⟨hrr, hrm.1, hrm.2.1⟩
    · rw [hother w hwv] at hwm ⊢
      obtain ⟨hnr, h0, htrue⟩ := h.mountRoot w hw hwm
      have hne' : (st.mounts (st.vnodes w).mount).root ≠ v := by
        intro heq
        rw [heq, hplain] at htrue
        cases htrue
      rw [hother _ hne']
      exact ⟨hnr, h0, htrue⟩
  · intro w hw hwm
    rw [(hplace w).2.1]
    by_cases hwv : w = v
    · rw [hwv]
      exact hplain
    · rw [hother w hwv] at hwm
      exact h.plain w hw hwm
  · intro w hw hwm
    rw [(hplace _).1, (hplace w).1, hmounts]
    by_cases hwv : w = v
    · rw [hwv, hself, hm]
      exact Or.inl hrm.2.2
    · rw [hother w hwv] at hwm ⊢
      refine (h.heir w hw hwm).imp_right fun heq => ?_
      have hpv : (st.vnodes w).parent ≠ v := by
        intro hpv
        rw [hpv, hmount] at heq
        exact hwm heq.symm
      rw [hother _ hpv]
      exact heq
  · intro w hw i hi
    rw [(hplace w).2.2] at hi ⊢
    rw [(hplace _).1, (hplace _).2.1]
    exact h.child w hw i hi
  · obtain ⟨rank, hrank⟩ := h.rank
    refine ⟨rank, fun w hw hwr => ?_⟩
    rw [(hplace w).1]
    rw [hroot] at hwr
    exact hrank w hw hwr

end Hierarchy

structure MountsKept (st st' : State) (T T' : Set ℕ) : Prop where
  parent : ∀ v ∈ T, (st'.vnodes v).parent = (st.vnodes v).parent ∧
    (st'.vnodes v).parentIsMount = (st.vnodes v).parentIsMount
  mount : ∀ v ∈ T, (st.vnodes v).mount ≠ 0 → (st'.vnodes v).mount = (st.vnodes v).mount ∧
    (st'.mounts (st.vnodes v).mount).root = (st.mounts (st.vnodes v).mount).root
  directory : ∀ v ∈ T, (st.internal v).type = .directory → (st'.internal v).type = .directory
  registered : st.filesystems <+: st'.filesystems ∧ ∀ f ∈ st.filesystems, st'.fsTable f = st.fsTable f
  hierarchy : Hierarchy st T → Hierarchy st' T'

namespace MountsKept

variable {st₁ : State} {T₁ T' : Set ℕ}

theorem trans (h₁ : MountsKept st st₁ T T₁) (h₂ : MountsKept st₁ st' T₁ T') (hsub : T ⊆ T₁) :
    MountsKept st st' T T' where
  parent v hv := by
    rw [(h₂.parent v (hsub hv)).1, (h₂.parent v (hsub hv)).2]
    exact h₁.parent v hv
  mount v hv hm := by
    obtain ⟨hmount, hroot⟩ := h₁.mount v hv hm
    have hm₁ : (st₁.vnodes v).mount ≠ 0 := hmount ▸ hm
    obtain ⟨hmount', hroot'⟩ := h₂.mount v (hsub hv) hm₁
    rw [hmount] at hmount' hroot'
    exact ⟨hmount', hroot'.trans hroot⟩
  directory v hv htype := h₂.directory v (hsub hv) (h₁.directory v hv htype)
  registered := by
    refine ⟨h₁.registered.1.trans h₂.registered.1, fun f hf => ?_⟩
    rw [h₂.registered.2 f (h₁.registered.1.subset hf), h₁.registered.2 f hf]
  hierarchy hr := h₂.hierarchy (h₁.hierarchy hr)

theorem refl (st : State) (T : Set ℕ) : MountsKept st st T T :=
  ⟨fun _ _ => ⟨rfl, rfl⟩, fun _ _ _ => ⟨rfl, rfl⟩, fun _ _ htype => htype,
    ⟨List.prefix_rfl, fun _ _ => rfl⟩, id⟩

/-- Changes that leave vnodes and mounts and the shape of the nodes. -/
theorem same (h : Tree st T) (hv : st'.vnodes = st.vnodes) (hm : st'.mounts = st.mounts)
    (hn : ∀ n, SameShape (st.nodes n) (st'.nodes n)) (hfs : st'.filesystems = st.filesystems)
    (htable : st'.fsTable = st.fsTable) (hrootfs : st'.rootfs = st.rootfs) : MountsKept st st' T T where
  parent v _ := by rw [hv]; exact ⟨rfl, rfl⟩
  mount v _ _ := by rw [hv, hm]; exact ⟨rfl, rfl⟩
  directory v _ htype := by rw [State.internal, hv, (hn _).type]; exact htype
  registered := by rw [hfs, htable]; exact ⟨List.prefix_rfl, fun _ _ => rfl⟩
  hierarchy hr := by
    refine hr.congr h (fun v _ => ?_) (fun v _ _ => ?_) (fun v _ => ?_) ?_
    · rw [hv]
      exact ⟨rfl, rfl, rfl⟩
    · rw [hm]
    · rw [State.internal, hv]
      exact ⟨(hn _).children, (hn _).numChildren⟩
    · rw [State.root, State.root, hm, hrootfs]

theorem extend (h : Tree st T) (he : Extends st st' bs) : MountsKept st st' T T where
  parent v hv := by rw [he.vnode _ (h.vnode v hv)]; exact ⟨rfl, rfl⟩
  mount v hv hm := by
    rw [he.vnode _ (h.vnode v hv), he.mount _ (h.mount v hv hm).1]
    exact ⟨rfl, rfl⟩
  directory v hv htype := by
    rw [State.internal, he.vnode _ (h.vnode v hv), he.node _ (h.node v hv)]
    exact htype
  registered := by
    rw [he.filesystems]
    exact ⟨List.prefix_rfl, fun f hf => he.fs _ (h.fs f hf).1⟩
  hierarchy hr := hr.extend h he

/-- A new vnode with a node becomes a child of `dir`. -/
theorem attach (h : Tree st T) (he : Extends st st' bs) {dir n : ℕ} (hd : dir ∈ T)
    (hv : (v, sizeofVnode) ∈ bs) (hn : (n, sizeofNode) ∈ bs) (hint : (st'.vnodes v).internal = n)
    (hparent : (st'.vnodes v).parent = dir) (hplain : (st'.vnodes v).parentIsMount = false)
    (hmount : (st'.vnodes v).mount = 0 ∨ (st'.vnodes v).mount = (st.vnodes dir).mount)
    (hempty : (st'.nodes n).numChildren = 0) :
    MountsKept st (st'.setNode (st.vnodes dir).internal (·.append v)) T (Insert.insert v T) := by
  have hkept := extend h he
  have hdir : st'.vnodes dir = st.vnodes dir := he.vnode _ (h.vnode dir hd)
  have hvT : v ∉ T := fun hin => he.fresh hv _ (h.vnode v hin) rfl
  refine ⟨hkept.parent, hkept.mount, fun w hw htype => ?_, hkept.registered, fun hr => ?_⟩
  · refine Eq.trans ?_ (hkept.directory w hw htype)
    change (Function.update st'.nodes (st.vnodes dir).internal _ (st'.vnodes w).internal).type = _
    by_cases hk : (st'.vnodes w).internal = (st.vnodes dir).internal
    · rw [hk, Function.update_self, State.internal, hk]
      rfl
    · rw [Function.update_of_ne hk]
      rfl
  · rw [← hdir]
    refine (Hierarchy.insert (hr.extend h he) (h.extend he) hd hvT hparent ?_ ?_).append ?_ hparent hplain
    · rw [State.internal, hint]
      exact hempty
    · rw [hdir]
      exact hmount.imp_right fun heq => ⟨heq, hplain⟩
    · rintro w (rfl | hw) heq
      · rw [hint, hdir] at heq
        exact absurd heq.symm (he.fresh hn _ (h.node dir hd))
      · exact (h.extend he).node_inj w hw dir hd heq

end MountsKept

structure Grows (st st' : State) (T T' : Set ℕ) : Prop where
  tree : Tree st' T'
  subset : T ⊆ T'
  root : st'.root = st.root
  vOps : ∀ v ∈ T, (st'.vnodes v).vOps = (st.vnodes v).vOps
  handle : ∀ p, (p, sizeofFile) ∈ st.heap.live → (p, sizeofFile) ∈ st'.heap.live ∧
    (st'.files p).vnode = (st.files p).vnode ∧ (st'.files p).fOps = (st.files p).fOps
  mounts : MountsKept st st' T T'

namespace Grows

variable {st₁ : State} {T₁ T' : Set ℕ}

theorem trans (h₁ : Grows st st₁ T T₁) (h₂ : Grows st₁ st' T₁ T') : Grows st st' T T' where
  tree := h₂.tree
  subset := h₁.subset.trans h₂.subset
  root := h₂.root.trans h₁.root
  vOps v hv := (h₂.vOps v (h₁.subset hv)).trans (h₁.vOps v hv)
  handle p hp := by
    obtain ⟨hlive₁, hvnode₁, hops₁⟩ := h₁.handle p hp
    obtain ⟨hlive₂, hvnode₂, hops₂⟩ := h₂.handle p hlive₁
    exact ⟨hlive₂, hvnode₂.trans hvnode₁, hops₂.trans hops₁⟩
  mounts := h₁.mounts.trans h₂.mounts h₁.subset

theorem extend (h : Tree st T) (he : Extends st st' bs) : Grows st st' T T where
  tree := h.extend he
  subset := Set.Subset.rfl
  root := by
    rw [State.root, State.root, he.rootfs]
    exact congrArg Mount.root (he.mount _ h.rootfs)
  vOps v hv := congrArg Vnode.vOps (he.vnode _ (h.vnode v hv))
  handle p hp :=
    ⟨he.mem_live hp, congrArg File.vnode (he.file _ hp), congrArg File.fOps (he.file _ hp)⟩
  mounts := MountsKept.extend h he

theorem offTree (h : Tree st T) {p : ℕ} (ho : OffTree st T p) : Grows st (st.free p) T T := by
  refine ⟨h.free_offTree ho, Set.Subset.rfl, rfl, fun _ _ => rfl, fun q hq => ?_, ?_⟩
  · refine ⟨Heap.mem_free.2 ⟨hq, ?_⟩, rfl, rfl⟩
    rintro rfl
    exact (ho.size _ hq).2.2.2 rfl
  · exact MountsKept.same h rfl rfl (fun _ => SameShape.refl _) rfl rfl rfl

theorem created (h : Tree st T) {dir : ℕ} {type : NodeType} (hd : dir ∈ T)
    (hc : Created st st' dir v name type) : Grows st st' T (Insert.insert v T) := by
  have htree := h.created hd hc
  obtain ⟨-, st₁, n, data, -, rfl, hext, hvnode, hnew⟩ := hc
  have hg := Grows.extend h hext
  refine ⟨htree, Set.subset_insert v T, hg.root, hg.vOps, hg.handle, ?_⟩
  have hnode : (n, sizeofNode) ∈ nodeBlocks type n data := by
    rw [nodeBlocks]
    split_ifs <;> simp
  refine MountsKept.attach h hext hd (List.mem_cons_self ..) (List.mem_cons_of_mem _ hnode) ?_ ?_ ?_ ?_ ?_
  · rw [hvnode]
  · rw [hvnode]
  · rw [hvnode]
  · rw [hvnode]
    exact Or.inr rfl
  · rw [hnew, createdNode]
    split_ifs <;> rfl

end Grows

end OscKernel.Vfs
