import OscKernel.PathWalk
import OscKernel.TmpfsCreate

/-!
# The tree of vnodes

`Tree st T` is what the operations of the virtual file system keep about the vnodes `T` they have
made: parents, children and roots of mounts are again in `T`, and the structures are blocks of the
heap. A walk that begins in `T` stays in `T`.
-/

namespace OscKernel.Vfs

/-- The vnode of a file of the memory file system, whose data `tmpfs_write` may free. -/
def IsDataFile (st : State) (v : ℕ) : Prop :=
  (st.vnodes v).vOps = some .tmpfs ∧ (st.internal v).type = .file

/-- No structure of the tree, no file and no handle begins at `p`. -/
structure OffTree (st : State) (T : Set ℕ) (p : ℕ) : Prop where
  size : ∀ k, (p, k) ∈ st.heap.live →
    k ≠ sizeofVnode ∧ k ≠ sizeofNode ∧ k ≠ sizeofMount ∧ k ≠ sizeofFile
  data : ∀ v ∈ T, (st.internal v).type = .file → (st.internal v).data ≠ p

structure Tree (st : State) (T : Set ℕ) : Prop where
  heap : st.heap.Ok
  rootfs : (st.rootfs, sizeofMount) ∈ st.heap.live
  root : st.root ∈ T
  rootMount : (st.vnodes st.root).mount = 0 ∧ (st.vnodes st.root).parentIsMount = true
  vnode : ∀ v ∈ T, (v, sizeofVnode) ∈ st.heap.live
  node : ∀ v ∈ T, ((st.vnodes v).internal, sizeofNode) ∈ st.heap.live
  node_inj : ∀ v ∈ T, ∀ w ∈ T, (st.vnodes v).internal = (st.vnodes w).internal → v = w
  vOps : ∀ v ∈ T, (st.vnodes v).vOps ≠ none
  fOps : ∀ v ∈ T, (st.vnodes v).fOps ≠ none ∧
    ((st.vnodes v).fOps = some .tmpfs → (st.vnodes v).vOps = some .tmpfs)
  parent : ∀ v ∈ T, v ≠ st.root → (st.vnodes v).parent ∈ T
  child : ∀ v ∈ T, ∀ i < (st.internal v).numChildren, (st.internal v).children i ∈ T
  mount : ∀ v ∈ T, (st.vnodes v).mount ≠ 0 → ((st.vnodes v).mount, sizeofMount) ∈ st.heap.live ∧
    (st.mounts (st.vnodes v).mount).root ∈ T
  data : ∀ v ∈ T, IsDataFile st v → ((st.internal v).data, (st.internal v).capacity) ∈ st.heap.live ∧
    ∃ k, (st.internal v).capacity = defaultFileSize * 2 ^ k
  data_inj : ∀ v ∈ T, ∀ w ∈ T, IsDataFile st v → IsDataFile st w →
    (st.internal v).data = (st.internal w).data → v = w
  fs : ∀ f ∈ st.filesystems, (f, sizeofFilesystem) ∈ st.heap.live ∧ (st.fsTable f).setupMount ≠ none

variable {st st' : State} {T : Set ℕ} {v w current t : ℕ} {name : List UInt8}
  {names : List (List UInt8)} {bs : List (ℕ × ℕ)}

namespace Tree

theorem ne_zero (h : Tree st T) (hv : v ∈ T) : v ≠ 0 := (h.heap.start_pos _ (h.vnode v hv)).ne'

theorem internal_ne_zero (h : Tree st T) (hv : v ∈ T) : (st.vnodes v).internal ≠ 0 :=
  (h.heap.start_pos _ (h.node v hv)).ne'

theorem ownNodes (h : Tree st T) : OwnNodes st T := ⟨h.vnode, h.node, h.node_inj⟩

theorem cross_mem (h : Tree st T) (hv : v ∈ T) : cross st v ∈ T := by
  simp only [cross]
  split_ifs with hm
  · exact (h.mount v hv hm).2
  · exact hv

theorem walkUp_mem (h : Tree st T) (hc : current ∈ T) (hup : walkUp st current = .ok v) : v ∈ T := by
  simp only [walkUp] at hup
  split_ifs at hup with hroot hnull hmount hproot hpnull
  · exact Except.ok.inj hup ▸ hc
  · exact Except.ok.inj hup ▸ h.root
  · exact Except.ok.inj hup ▸ h.parent _ (h.parent _ hc hroot) hproot
  · exact Except.ok.inj hup ▸ h.parent _ hc hroot

theorem findChild_mem (h : Tree st T) (hc : current ∈ T)
    (hfind : findChild st (st.internal current) name = some v) : v ∈ T := by
  obtain ⟨i, hi, rfl⟩ := List.mem_map.1 (List.mem_of_find?_eq_some hfind)
  exact h.child _ hc i (List.mem_range.1 hi)

/-- A lookup in a directory of `T`. -/
theorem tmpfsLookup_eq (h : Tree st T) (hc : current ∈ T) (target : ℕ) :
    tmpfsLookup st current target name =
      if (st.internal current).type ≠ .directory then (eacces, 0)
      else
        match findChild st (st.internal current) name with
        | some c => (0, c)
        | none => (enoent, 0) := by
  have hnull : ¬ (current = 0 ∨ (st.vnodes current).internal = 0) := by
    rintro (h0 | h0)
    · exact h.ne_zero hc h0
    · exact h.internal_ne_zero hc h0
  unfold tmpfsLookup
  exact if_neg hnull

theorem lookup_eq (ops : VnodeOps) : ops.lookup = tmpfsLookup := by cases ops <;> rfl

/-- The walk to a child: what it finds and where it crosses. -/
theorem walkDown_eq (h : Tree st T) (hc : current ∈ T) :
    walkDown st current name =
      if (st.internal (cross st current)).type ≠ .directory then .error eacces
      else
        match findChild st (st.internal (cross st current)) name with
        | some c => .ok (cross st c)
        | none => .error enoent := by
  have hcross := h.cross_mem hc
  obtain ⟨ops, hops⟩ := Option.ne_none_iff_exists'.1 (h.vOps _ hcross)
  simp only [walkDown, hops, lookup_eq, h.tmpfsLookup_eq hcross]
  by_cases htype : (st.internal (cross st current)).type ≠ .directory
  · simp only [if_pos htype]
    rfl
  · simp only [if_neg htype]
    cases findChild st (st.internal (cross st current)) name <;> rfl

theorem walkDown_mem (h : Tree st T) (hc : current ∈ T) (hdown : walkDown st current name = .ok v) :
    v ∈ T := by
  rw [h.walkDown_eq hc] at hdown
  split_ifs at hdown
  cases hfind : findChild st (st.internal (cross st current)) name with
  | none => rw [hfind] at hdown; cases hdown
  | some c =>
      rw [hfind] at hdown
      exact Except.ok.inj hdown ▸ h.cross_mem (h.findChild_mem (h.cross_mem hc) hfind)

theorem walkComponent_mem (h : Tree st T) (hc : current ∈ T)
    (hstep : walkComponent st current name = .ok v) : v ∈ T := by
  simp only [walkComponent] at hstep
  split_ifs at hstep
  · exact Except.ok.inj hstep ▸ hc
  · exact h.walkUp_mem hc hstep
  · exact h.walkDown_mem hc hstep

theorem resolve_mem (h : Tree st T) (hc : current ∈ T) (hr : resolve st current names = .ok v) :
    v ∈ T := by
  induction names generalizing current with
  | nil => exact Except.ok.inj hr ▸ hc
  | cons name names ih =>
      rw [resolve_cons] at hr
      cases hstep : walkComponent st current name with
      | error c => rw [hstep] at hr; cases hr
      | ok w =>
          rw [hstep] at hr
          exact ih (h.walkComponent_mem hc hstep) hr

theorem leftover_mem (h : Tree st T) (hc : current ∈ T) :
    leftover st names current t = t ∨ leftover st names current t ∈ T := by
  induction names generalizing current t with
  | nil => exact Or.inr hc
  | cons name names ih =>
      cases hstep : walkComponent st current name with
      | error c =>
          left
          simp only [leftover, hstep]
      | ok w =>
          have hw := h.walkComponent_mem hc hstep
          simp only [leftover, hstep]
          split_ifs
          · rcases ih hw with hsame | hin
            · exact Or.inr (hsame ▸ hw)
            · exact Or.inr hin
          · exact ih hw

theorem resolvePath_mem (h : Tree st T) {cwd : ℕ} (hcwd : cwd = 0 ∨ cwd ∈ T) {path : List UInt8}
    (hr : resolvePath st cwd path = .ok v) : v ∈ T := by
  rw [resolvePath] at hr
  split_ifs at hr with hnone
  refine h.resolve_mem ?_ hr
  rw [startVnode]
  split_ifs with habs
  · exact h.root
  · exact hcwd.resolve_left fun h0 => hnone ⟨habs, h0⟩

theorem leftoverPath_mem (h : Tree st T) {cwd : ℕ} (hcwd : cwd = 0 ∨ cwd ∈ T) (path : List UInt8) :
    leftoverPath st cwd path = 0 ∨ leftoverPath st cwd path ∈ T := by
  rw [leftoverPath]
  split_ifs with hnone
  · exact Or.inl rfl
  refine h.leftover_mem ?_
  rw [startVnode]
  split_ifs with habs
  · exact h.root
  · exact hcwd.resolve_left fun h0 => hnone ⟨habs, h0⟩

/-- A lookup from a directory of `T` ends in `T` when it succeeds, and leaves nothing else in the
target when it fails. -/
theorem lookupPath_mem (h : Tree st T) {cwd : ℕ} (hcwd : cwd = 0 ∨ cwd ∈ T) {path : List UInt8}
    (hnul : (0 : UInt8) ∉ path) :
    ((lookupPath st cwd path).2.1 = 0 → (lookupPath st cwd path).2.2 ∈ T) ∧
      ((lookupPath st cwd path).2.2 = 0 ∨ (lookupPath st cwd path).2.2 ∈ T) := by
  by_cases hcopy : CopyOk st path
  · rw [lookupPath_spec hnul hcopy]
    refine ⟨fun h0 => ?_, h.leftoverPath_mem hcwd path⟩
    change code (resolvePath st cwd path) = 0 at h0
    cases hr : resolvePath st cwd path with
    | error c =>
        rw [hr] at h0
        exact absurd h0 (resolvePath_error hr).ne
    | ok v =>
        rw [leftoverPath_of_ok hr]
        exact h.resolvePath_mem hcwd hr
  · rw [lookupPath_no_copy hcopy]
    exact ⟨fun h0 => absurd (show enomem = 0 from h0) (by decide), Or.inl rfl⟩

/-- New blocks change nothing. -/
theorem extend (h : Tree st T) (he : Extends st st' bs) : Tree st' T := by
  have hv : ∀ v ∈ T, st'.vnodes v = st.vnodes v := fun v hv => he.vnode _ (h.vnode v hv)
  have hi : ∀ v ∈ T, st'.internal v = st.internal v := fun v hv' => by
    rw [State.internal, hv v hv']
    exact he.node _ (h.node v hv')
  have hroot : st'.root = st.root := by
    rw [State.root, he.rootfs]
    exact congrArg Mount.root (he.mount _ h.rootfs)
  have hfile : ∀ v ∈ T, IsDataFile st' v → IsDataFile st v := fun v hv' hf => by
    rwa [IsDataFile, hv v hv', hi v hv'] at hf
  refine ⟨he.ok, ?_, ?_, ?_, ?_, ?_, ?_, ?_, ?_, ?_, ?_, ?_, ?_, ?_, ?_⟩
  · rw [he.rootfs]
    exact he.mem_live h.rootfs
  · rw [hroot]
    exact h.root
  · rw [hroot, hv _ h.root]
    exact h.rootMount
  · exact fun v hv' => he.mem_live (h.vnode v hv')
  · intro v hv'
    rw [hv v hv']
    exact he.mem_live (h.node v hv')
  · intro v hv' w hw heq
    rw [hv v hv', hv w hw] at heq
    exact h.node_inj v hv' w hw heq
  · intro v hv'
    rw [hv v hv']
    exact h.vOps v hv'
  · intro v hv'
    rw [hv v hv']
    exact h.fOps v hv'
  · intro v hv' hne
    rw [hv v hv']
    exact h.parent v hv' (hroot ▸ hne)
  · intro v hv' i hlt
    rw [hi v hv'] at hlt ⊢
    exact h.child v hv' i hlt
  · intro v hv' hm
    rw [hv v hv'] at hm ⊢
    obtain ⟨hlive, hin⟩ := h.mount v hv' hm
    exact ⟨he.mem_live hlive, (congrArg Mount.root (he.mount _ hlive)).symm ▸ hin⟩
  · intro v hv' hf
    obtain ⟨hlive, hcap⟩ := h.data v hv' (hfile v hv' hf)
    rw [hi v hv']
    exact ⟨he.mem_live hlive, hcap⟩
  · intro v hv' w hw hfv hfw heq
    rw [hi v hv', hi w hw] at heq
    exact h.data_inj v hv' w hw (hfile v hv' hfv) (hfile w hw hfw) heq
  · intro f hf
    rw [he.filesystems] at hf
    obtain ⟨hlive, hset⟩ := h.fs f hf
    exact ⟨he.mem_live hlive, (congrArg Filesystem.setupMount (he.fs _ hlive)).symm ▸ hset⟩

/-- A new vnode with a node of its own and no children. -/
theorem insert (h : Tree st T) (hv : (v, sizeofVnode) ∈ st.heap.live)
    (hn : ((st.vnodes v).internal, sizeofNode) ∈ st.heap.live)
    (hinj : ∀ w ∈ T, (st.vnodes w).internal ≠ (st.vnodes v).internal)
    (hvops : (st.vnodes v).vOps ≠ none) (hfops : (st.vnodes v).fOps ≠ none ∧
      ((st.vnodes v).fOps = some .tmpfs → (st.vnodes v).vOps = some .tmpfs))
    (hparent : (st.vnodes v).parent ∈ T) (hchild : (st.internal v).numChildren = 0)
    (hmount : (st.vnodes v).mount ≠ 0 → ((st.vnodes v).mount, sizeofMount) ∈ st.heap.live ∧
      (st.mounts (st.vnodes v).mount).root ∈ T)
    (hdata : IsDataFile st v → ((st.internal v).data, (st.internal v).capacity) ∈ st.heap.live ∧
      (∃ k, (st.internal v).capacity = defaultFileSize * 2 ^ k) ∧
      ∀ w ∈ T, IsDataFile st w → (st.internal w).data ≠ (st.internal v).data) :
    Tree st (Insert.insert v T) where
  heap := h.heap
  rootfs := h.rootfs
  root := Or.inr h.root
  rootMount := h.rootMount
  vnode := by
    rintro w (rfl | hw)
    · exact hv
    · exact h.vnode w hw
  node := by
    rintro w (rfl | hw)
    · exact hn
    · exact h.node w hw
  node_inj := by
    rintro w (rfl | hw) u (rfl | hu) heq
    · rfl
    · exact absurd heq.symm (hinj u hu)
    · exact absurd heq (hinj w hw)
    · exact h.node_inj w hw u hu heq
  vOps := by
    rintro w (rfl | hw)
    · exact hvops
    · exact h.vOps w hw
  fOps := by
    rintro w (rfl | hw)
    · exact hfops
    · exact h.fOps w hw
  parent := by
    rintro w (rfl | hw) hne
    · exact Or.inr hparent
    · exact Or.inr (h.parent w hw hne)
  child := by
    rintro w (rfl | hw) i hi
    · omega
    · exact Or.inr (h.child w hw i hi)
  mount := by
    rintro w (rfl | hw) hm
    · exact ⟨(hmount hm).1, Or.inr (hmount hm).2⟩
    · exact ⟨(h.mount w hw hm).1, Or.inr (h.mount w hw hm).2⟩
  data := by
    rintro w (rfl | hw) hf
    · exact ⟨(hdata hf).1, (hdata hf).2.1⟩
    · exact h.data w hw hf
  data_inj := by
    rintro w (rfl | hw) u (rfl | hu) hfw hfu heq
    · rfl
    · exact absurd heq.symm ((hdata hfw).2.2 u hu hfu)
    · exact absurd heq ((hdata hfu).2.2 w hw hfw)
    · exact h.data_inj w hw u hu hfw hfu heq
  fs := h.fs

/-- Directories whose nodes agree but for their children: a node gets a child of `T`. -/
theorem append (h : Tree st T) {dir : ℕ} (hd : dir ∈ T) (hv : v ∈ T) :
    Tree (st.setNode (st.vnodes dir).internal (·.append v)) T := by
  have hself := st.internal_setNode_self dir (·.append v)
  have hother : ∀ w ∈ T, w ≠ dir →
      (st.setNode (st.vnodes dir).internal (·.append v)).internal w = st.internal w :=
    fun w hw hne => st.internal_setNode_of_ne _ fun heq => hne (h.node_inj w hw dir hd heq)
  have hfields : ∀ w ∈ T,
      ((st.setNode (st.vnodes dir).internal (·.append v)).internal w).type = (st.internal w).type ∧
      ((st.setNode (st.vnodes dir).internal (·.append v)).internal w).data = (st.internal w).data ∧
      ((st.setNode (st.vnodes dir).internal (·.append v)).internal w).capacity =
        (st.internal w).capacity := by
    intro w hw
    by_cases hne : w = dir
    · rw [hne, hself]
      exact ⟨rfl, rfl, rfl⟩
    · rw [hother w hw hne]
      exact ⟨rfl, rfl, rfl⟩
  have hfile : ∀ w ∈ T, IsDataFile (st.setNode (st.vnodes dir).internal (·.append v)) w →
      IsDataFile st w := fun w hw hf => ⟨hf.1, (hfields w hw).1 ▸ hf.2⟩
  refine ⟨h.heap, h.rootfs, h.root, h.rootMount, h.vnode, h.node, h.node_inj, h.vOps, h.fOps,
    h.parent, ?_, h.mount, ?_, ?_, h.fs⟩
  · intro w hw i hi
    by_cases hne : w = dir
    · subst hne
      rw [hself] at hi ⊢
      change (Function.update (st.internal w).children (st.internal w).numChildren v i) ∈ T
      by_cases hlast : i = (st.internal w).numChildren
      · subst hlast
        rw [Function.update_self]
        exact hv
      · rw [Function.update_of_ne hlast]
        exact h.child w hw i (by change i < (st.internal w).numChildren + 1 at hi; omega)
    · rw [hother w hw hne] at hi ⊢
      exact h.child w hw i hi
  · intro w hw hf
    rw [(hfields w hw).2.1, (hfields w hw).2.2]
    exact h.data w hw (hfile w hw hf)
  · intro w hw u hu hfw hfu heq
    rw [(hfields w hw).2.1, (hfields u hu).2.1] at heq
    exact h.data_inj w hw u hu (hfile w hw hfw) (hfile u hu hfu) heq

/-- Files may move and grow: the nodes keep their other fields, and the blocks of the tree stay. -/
theorem moveData (h : Tree st T) {n : ℕ} {f : Node → Node} {hp : Heap} {mem : ByteMem}
    {files : ℕ → File} (hok : hp.Ok)
    (hkeep : ∀ x k, (x, k) ∈ st.heap.live → k < defaultFileSize → (x, k) ∈ hp.live)
    (hf : ∀ e, (f e).type = e.type ∧ (f e).children = e.children ∧ (f e).numChildren = e.numChildren)
    (hdata : ∀ w ∈ T, IsDataFile st w → (st.vnodes w).internal ≠ n →
      ((st.internal w).data, (st.internal w).capacity) ∈ hp.live)
    (hself : ∀ w ∈ T, IsDataFile st w → (st.vnodes w).internal = n →
      ((f (st.internal w)).data, (f (st.internal w)).capacity) ∈ hp.live ∧
        (∃ k, (f (st.internal w)).capacity = defaultFileSize * 2 ^ k) ∧
        ∀ u ∈ T, IsDataFile st u → (st.internal u).data = (f (st.internal w)).data → u = w) :
    Tree (State.setNode { st with heap := hp, mem := mem, files := files } n f) T := by
  have hint : ∀ w, (State.setNode { st with heap := hp, mem := mem, files := files } n f).internal w =
      if (st.vnodes w).internal = n then f (st.internal w) else st.internal w := by
    intro w
    change Function.update st.nodes n (f (st.nodes n)) (st.vnodes w).internal = _
    split_ifs with heq
    · rw [← heq, Function.update_self]
      rfl
    · exact Function.update_of_ne heq _ _
  have hfields : ∀ w, ((State.setNode { st with heap := hp, mem := mem, files := files } n f).internal
      w).type = (st.internal w).type ∧
      ((State.setNode { st with heap := hp, mem := mem, files := files } n f).internal w).children =
        (st.internal w).children ∧
      ((State.setNode { st with heap := hp, mem := mem, files := files } n f).internal w).numChildren =
        (st.internal w).numChildren := by
    intro w
    rw [hint]
    split_ifs
    · exact hf _
    · exact ⟨rfl, rfl, rfl⟩
  have hfile : ∀ w, IsDataFile (State.setNode { st with heap := hp, mem := mem, files := files } n f) w →
      IsDataFile st w := fun w hw => ⟨hw.1, (hfields w).1 ▸ hw.2⟩
  refine ⟨hok, hkeep _ _ h.rootfs (by decide), h.root, h.rootMount, ?_, ?_, h.node_inj, h.vOps, h.fOps,
    h.parent, ?_, ?_, ?_, ?_, ?_⟩
  · exact fun w hw => hkeep _ _ (h.vnode w hw) (by decide)
  · exact fun w hw => hkeep _ _ (h.node w hw) (by decide)
  · intro w hw i hi
    rw [(hfields w).2.2] at hi
    rw [(hfields w).2.1]
    exact h.child w hw i hi
  · exact fun w hw hm => ⟨hkeep _ _ (h.mount w hw hm).1 (by decide), (h.mount w hw hm).2⟩
  · intro w hw hfw
    rw [hint]
    split_ifs with heq
    · exact ⟨(hself w hw (hfile w hfw) heq).1, (hself w hw (hfile w hfw) heq).2.1⟩
    · exact ⟨hdata w hw (hfile w hfw) heq, (h.data w hw (hfile w hfw)).2⟩
  · intro w hw u hu hfw hfu hdd
    rw [hint, hint] at hdd
    split_ifs at hdd with hwn hun hun
    · exact h.node_inj w hw u hu (hwn.trans hun.symm)
    · exact ((hself w hw (hfile w hfw) hwn).2.2 u hu (hfile u hfu) hdd.symm).symm
    · exact (hself u hu (hfile u hfu) hun).2.2 w hw (hfile w hfw) hdd
    · exact h.data_inj w hw u hu (hfile w hfw) (hfile u hfu) hdd
  · exact fun g hg => ⟨hkeep _ _ (h.fs g hg).1 (by decide), (h.fs g hg).2⟩

/-- A vnode may get other file operations or a mount. -/
theorem setVnode (h : Tree st T) {f : Vnode → Vnode}
    (hint : (f (st.vnodes v)).internal = (st.vnodes v).internal)
    (hvops : (f (st.vnodes v)).vOps = (st.vnodes v).vOps)
    (hparent : (f (st.vnodes v)).parent = (st.vnodes v).parent)
    (hisMount : (f (st.vnodes v)).parentIsMount = (st.vnodes v).parentIsMount)
    (hfops : (f (st.vnodes v)).fOps ≠ none ∧
      ((f (st.vnodes v)).fOps = some .tmpfs → (st.vnodes v).vOps = some .tmpfs))
    (hroot : v = st.root → (f (st.vnodes v)).mount = 0)
    (hmount : (f (st.vnodes v)).mount ≠ 0 →
      ((f (st.vnodes v)).mount, sizeofMount) ∈ st.heap.live ∧
        (st.mounts (f (st.vnodes v)).mount).root ∈ T) :
    Tree (st.setVnode v f) T := by
  have hself : (st.setVnode v f).vnodes v = f (st.vnodes v) := Function.update_self ..
  have hother : ∀ w, w ≠ v → (st.setVnode v f).vnodes w = st.vnodes w := fun w hw =>
    Function.update_of_ne hw ..
  have hfields : ∀ w, ((st.setVnode v f).vnodes w).internal = (st.vnodes w).internal ∧
      ((st.setVnode v f).vnodes w).vOps = (st.vnodes w).vOps ∧
      ((st.setVnode v f).vnodes w).parent = (st.vnodes w).parent ∧
      ((st.setVnode v f).vnodes w).parentIsMount = (st.vnodes w).parentIsMount := by
    intro w
    by_cases hw : w = v
    · rw [hw, hself]
      exact ⟨hint, hvops, hparent, hisMount⟩
    · rw [hother w hw]
      exact ⟨rfl, rfl, rfl, rfl⟩
  have hinternal : ∀ w, (st.setVnode v f).internal w = st.internal w := fun w =>
    congrArg st.nodes (hfields w).1
  have hfile : ∀ w, IsDataFile (st.setVnode v f) w → IsDataFile st w := fun w hw =>
    ⟨(hfields w).2.1 ▸ hw.1, hinternal w ▸ hw.2⟩
  refine ⟨h.heap, h.rootfs, h.root, ⟨?_, ?_⟩, h.vnode, ?_, ?_, ?_, ?_, ?_, ?_, ?_, ?_, ?_, h.fs⟩
  · change ((st.setVnode v f).vnodes st.root).mount = 0
    by_cases hw : st.root = v
    · rw [hw, hself]
      exact hroot hw.symm
    · rw [hother _ hw]
      exact h.rootMount.1
  · exact (hfields st.root).2.2.2.trans h.rootMount.2
  · intro w hw
    rw [(hfields w).1]
    exact h.node w hw
  · intro w hw u hu heq
    rw [(hfields w).1, (hfields u).1] at heq
    exact h.node_inj w hw u hu heq
  · intro w hw
    rw [(hfields w).2.1]
    exact h.vOps w hw
  · intro w hw
    by_cases hwv : w = v
    · rw [hwv, hself, hvops]
      exact hfops
    · rw [hother w hwv]
      exact h.fOps w hw
  · intro w hw hne
    rw [(hfields w).2.2.1]
    exact h.parent w hw hne
  · intro w hw i hi
    rw [hinternal] at hi ⊢
    exact h.child w hw i hi
  · intro w hw hm
    by_cases hwv : w = v
    · rw [hwv, hself] at hm ⊢
      exact hmount hm
    · rw [hother w hwv] at hm ⊢
      exact h.mount w hw hm
  · intro w hw hfw
    rw [hinternal]
    exact h.data w hw (hfile w hfw)
  · intro w hw u hu hfw hfu heq
    rw [hinternal, hinternal] at heq
    exact h.data_inj w hw u hu (hfile w hfw) (hfile u hfu) heq

theorem setFOps (h : Tree st T) (hv : v ∈ T) {ops : FileOps} (hops : ops ≠ .tmpfs) :
    Tree (st.setVnode v fun e => { e with fOps := some ops }) T := by
  refine h.setVnode rfl rfl rfl rfl ⟨Option.some_ne_none _, fun heq => ?_⟩ ?_ ?_
  · exact absurd (Option.some.inj heq) hops
  · rintro rfl
    exact h.rootMount.1
  · exact fun hm => h.mount v hv hm

/-- The vnode that a creation makes joins the tree. -/
theorem created (h : Tree st T) {dir : ℕ} {type : NodeType} (hd : dir ∈ T)
    (hc : Created st st' dir v name type) : Tree st' (Insert.insert v T) := by
  obtain ⟨hv0, st₁, n, data, hn0, rfl, hext, hvnode, hnode⟩ := hc
  have h₁ := h.extend hext
  have hlive : ∀ b ∈ (v, sizeofVnode) :: nodeBlocks type n data, b ∈ st₁.heap.live := by
    intro b hb
    rw [hext.live]
    exact List.mem_append_left _ hb
  have hnblock : (n, sizeofNode) ∈ nodeBlocks type n data := by
    rw [nodeBlocks]
    split_ifs <;> simp
  have hnfresh := hext.fresh (List.mem_cons_of_mem _ hnblock)
  have hdir : st₁.vnodes dir = st.vnodes dir := hext.vnode _ (h.vnode dir hd)
  have hint : st₁.internal v = createdNode name type (st.vnodes dir).internal data := by
    rw [State.internal, hvnode]
    exact hnode
  have hins : Tree st₁ (Insert.insert v T) := by
    refine h₁.insert (hlive _ (List.mem_cons_self ..)) ?_ ?_ ?_ ?_ ?_ ?_ ?_ ?_
    · rw [hvnode]
      exact hlive _ (List.mem_cons_of_mem _ hnblock)
    · intro w hw
      rw [hvnode, hext.vnode _ (h.vnode w hw)]
      exact hnfresh _ (h.node w hw)
    · rw [hvnode]
      exact Option.some_ne_none _
    · rw [hvnode]
      exact ⟨Option.some_ne_none _, fun _ => rfl⟩
    · rw [hvnode]
      exact hd
    · rw [hint, createdNode]
      split_ifs <;> rfl
    · rw [hvnode]
      intro hm
      change (st.vnodes dir).mount ≠ 0 at hm
      have := h₁.mount dir hd (by rwa [hdir])
      rwa [hdir] at this
    · rintro ⟨-, htype⟩
      rw [hint] at htype ⊢
      have htype' : type = .file := by
        by_contra hne
        rw [createdNode, if_neg hne] at htype
        exact hne htype
      subst htype'
      have hdblock : (data, defaultFileSize) ∈ nodeBlocks .file n data := by simp [nodeBlocks]
      refine ⟨hlive _ (List.mem_cons_of_mem _ hdblock), ⟨0, rfl⟩, ?_⟩
      intro w hw hf
      rw [IsDataFile, State.internal, hext.vnode _ (h.vnode w hw), hext.node _ (h.node w hw)] at hf
      rw [State.internal, hext.vnode _ (h.vnode w hw), hext.node _ (h.node w hw)]
      exact hext.fresh (List.mem_cons_of_mem _ hdblock) _ (h.data w hw hf).1
  rw [← hdir]
  exact hins.append (Or.inr hd) (Or.inl rfl)

theorem setFile (h : Tree st T) (p : ℕ) (f : File → File) : Tree (st.setFile p f) T :=
  ⟨h.heap, h.rootfs, h.root, h.rootMount, h.vnode, h.node, h.node_inj, h.vOps, h.fOps, h.parent,
    h.child, h.mount, h.data, h.data_inj, h.fs⟩

theorem free (h : Tree st T) {p : ℕ}
    (hsize : ∀ k, (p, k) ∈ st.heap.live → k ≠ sizeofVnode ∧ k ≠ sizeofNode ∧ k ≠ sizeofMount)
    (hdata : ∀ v ∈ T, IsDataFile st v → (st.internal v).data ≠ p) : Tree (st.free p) T := by
  have hkeep : ∀ x k, (x, k) ∈ st.heap.live → x ≠ p → (x, k) ∈ (st.free p).heap.live :=
    fun x k hx hne => Heap.mem_free.2 ⟨hx, hne⟩
  have hmount : ∀ x, (x, sizeofMount) ∈ st.heap.live → x ≠ p := by
    rintro x hx rfl
    exact (hsize _ hx).2.2 rfl
  refine ⟨h.heap.free p, hkeep _ _ h.rootfs (hmount _ h.rootfs), h.root, h.rootMount, ?_, ?_, h.node_inj,
    h.vOps, h.fOps, h.parent, h.child, ?_, ?_, h.data_inj, ?_⟩
  · refine fun v hv => hkeep _ _ (h.vnode v hv) ?_
    rintro rfl
    exact (hsize _ (h.vnode v hv)).1 rfl
  · exact fun v hv => hkeep _ _ (h.node v hv) fun heq => (hsize _ (heq ▸ h.node v hv)).2.1 rfl
  · exact fun v hv hm => ⟨hkeep _ _ (h.mount v hv hm).1 (hmount _ (h.mount v hv hm).1), (h.mount v hv hm).2⟩
  · exact fun v hv hf => ⟨hkeep _ _ (h.data v hv hf).1 (hdata v hv hf), (h.data v hv hf).2⟩
  · exact fun f hf => ⟨hkeep _ _ (h.fs f hf).1 (hmount f (h.fs f hf).1), (h.fs f hf).2⟩

/-- Handles are not part of the tree: no other structure has their size. -/
theorem free_handle (h : Tree st T) {p : ℕ} (hp : (p, sizeofFile) ∈ st.heap.live) :
    Tree (st.free p) T := by
  have hsize : ∀ k, (p, k) ∈ st.heap.live → k = sizeofFile := fun k hk =>
    congrArg Prod.snd (h.heap.eq_of_start hk hp rfl)
  refine h.free (fun k hk => ?_) fun v hv hf heq => ?_
  · rw [hsize k hk]
    decide
  · obtain ⟨hlive, k, hk⟩ := h.data v hv hf
    rw [heq] at hlive
    have hcap := hsize _ hlive
    have hpow : 0 < 2 ^ k := by positivity
    have hle : defaultFileSize * 1 ≤ defaultFileSize * 2 ^ k := Nat.mul_le_mul_left _ hpow
    rw [← hk, hcap] at hle
    exact absurd hle (by decide)

theorem free_offTree (h : Tree st T) {p : ℕ} (ho : OffTree st T p) : Tree (st.free p) T :=
  h.free (fun k hk => ⟨(ho.size k hk).1, (ho.size k hk).2.1, (ho.size k hk).2.2.1⟩) fun v hv hf =>
    ho.data v hv hf.2

end Tree

theorem OffTree.free {p : ℕ} (h : OffTree st T p) (q : ℕ) : OffTree (st.free q) T p :=
  ⟨fun k hk => h.size k (Heap.mem_free.1 hk).1, h.data⟩

end OscKernel.Vfs
