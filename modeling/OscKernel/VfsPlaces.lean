import OscKernel.VfsFiles

/-!
# Places

`Places st st' T` says that the vnodes `T` are where they were: they keep their names, types, parents and
mounts, and directories only get further children behind those they have. A walk over components that
exist goes on to find what it found.
-/

namespace OscKernel.Vfs

variable {st st₁ st' : State} {T T₁ T' : Set ℕ} {v w cwd current : ℕ} {name path : List UInt8}
  {names : List (List UInt8)} {bs : List (ℕ × ℕ)}

def childList (st : State) (v : ℕ) : List ℕ :=
  (List.range (st.internal v).numChildren).map (st.internal v).children

theorem findChild_childList (st : State) (v : ℕ) (name : List UInt8) :
    findChild st (st.internal v) name = (childList st v).find? fun c => (st.internal c).name = name := rfl

theorem Tree.children_mem (h : Tree st T) (hw : w ∈ T) : ∀ c ∈ childList st w, c ∈ T := by
  intro c hc
  obtain ⟨i, hi, rfl⟩ := List.mem_map.1 hc
  exact h.child w hw i (List.mem_range.1 hi)

structure Places (st st' : State) (T : Set ℕ) : Prop where
  root : st'.root = st.root
  parent : ∀ w ∈ T, (st'.vnodes w).parent = (st.vnodes w).parent
  mount : ∀ w ∈ T, (st'.vnodes w).mount = (st.vnodes w).mount
  mountRoot : ∀ w ∈ T, (st.vnodes w).mount ≠ 0 →
    (st'.mounts (st.vnodes w).mount).root = (st.mounts (st.vnodes w).mount).root
  name : ∀ w ∈ T, (st'.internal w).name = (st.internal w).name
  type : ∀ w ∈ T, (st'.internal w).type = (st.internal w).type
  children : ∀ w ∈ T, childList st w <+: childList st' w

namespace Places

theorem trans (h₁ : Places st st₁ T) (h₂ : Places st₁ st' T₁) (hsub : T ⊆ T₁) : Places st st' T where
  root := h₂.root.trans h₁.root
  parent w hw := (h₂.parent w (hsub hw)).trans (h₁.parent w hw)
  mount w hw := (h₂.mount w (hsub hw)).trans (h₁.mount w hw)
  mountRoot w hw hm := by
    have hm₁ : (st₁.vnodes w).mount ≠ 0 := by rwa [h₁.mount w hw]
    have hroot := h₂.mountRoot w (hsub hw) hm₁
    rw [h₁.mount w hw] at hroot
    exact hroot.trans (h₁.mountRoot w hw hm)
  name w hw := (h₂.name w (hsub hw)).trans (h₁.name w hw)
  type w hw := (h₂.type w (hsub hw)).trans (h₁.type w hw)
  children w hw := (h₁.children w hw).trans (h₂.children w (hsub hw))

/-- Changes that leave vnodes and mounts, and of the nodes what a walk sees. -/
theorem same (hv : st'.vnodes = st.vnodes) (hm : st'.mounts = st.mounts) (hrootfs : st'.rootfs = st.rootfs)
    (hn : ∀ n, SameShape (st.nodes n) (st'.nodes n) ∧ (st'.nodes n).name = (st.nodes n).name) :
    Places st st' T where
  root := by rw [State.root, State.root, hm, hrootfs]
  parent w _ := by rw [hv]
  mount w _ := by rw [hv]
  mountRoot w _ _ := by rw [hm]
  name w _ := by rw [State.internal, hv]; exact (hn _).2
  type w _ := by rw [State.internal, hv]; exact (hn _).1.type
  children w _ := by
    have hint : st'.internal w = st'.nodes (st.vnodes w).internal := by rw [State.internal, hv]
    rw [childList, childList, hint, (hn _).1.children, (hn _).1.numChildren]
    exact List.prefix_rfl

theorem of_sameTree (h : SameTree st st') : Places st st' T :=
  same h.vnodes h.mounts h.rootfs fun n => by rw [h.nodes]; exact ⟨SameShape.refl _, rfl⟩

theorem refl (st : State) (T : Set ℕ) : Places st st T := of_sameTree ⟨rfl, rfl, rfl, rfl⟩

theorem extend (h : Tree st T) (he : Extends st st' bs) : Places st st' T where
  root := (Grows.extend h he).root
  parent w hw := by rw [he.vnode _ (h.vnode w hw)]
  mount w hw := by rw [he.vnode _ (h.vnode w hw)]
  mountRoot w hw hm := by rw [he.mount _ (h.mount w hw hm).1]
  name w hw := by rw [h.ownNodes.internal he hw]
  type w hw := by rw [h.ownNodes.internal he hw]
  children w hw := by
    rw [childList, childList, h.ownNodes.internal he hw]

section Walks

variable (hp : Places st st' T)
include hp

theorem cross (hw : w ∈ T) : cross st' w = Vfs.cross st w := by
  rw [Vfs.cross, Vfs.cross, hp.mount w hw]
  split_ifs with hm
  · exact hp.mountRoot w hw hm
  · rfl

theorem walkUp (h : Tree st T) (hw : w ∈ T) : walkUp st' w = Vfs.walkUp st w := by
  by_cases hroot : w = st.root
  · simp only [Vfs.walkUp, hp.root, if_pos hroot]
  have hparent := h.parent w hw hroot
  simp only [Vfs.walkUp, hp.root, if_neg hroot, hp.parent w hw, hp.parent _ hparent, hp.mount _ hparent]
  by_cases hm : (st.vnodes (st.vnodes w).parent).mount = 0
  · simp only [hm, ne_eq, not_true_eq_false, false_and, if_false]
  · rw [hp.mountRoot _ hparent hm]

/-- A child that is found stays found. -/
theorem findChild (h : Tree st T) (hw : w ∈ T) (hfind : findChild st (st.internal w) name = some v) :
    Vfs.findChild st' (st'.internal w) name = some v := by
  obtain ⟨l, hl⟩ := hp.children w hw
  rw [findChild_childList] at hfind
  rw [findChild_childList, ← hl, List.find?_append,
    find_name_congr name fun c hc => hp.name c (h.children_mem hw c hc), hfind]
  rfl

/-- The walk over components that exist. -/
theorem walkComponent (h : Tree st T) (h' : Tree st' T') (hsub : T ⊆ T') (hcur : current ∈ T)
    (hstep : walkComponent st current name = .ok w) : Vfs.walkComponent st' current name = .ok w := by
  rw [Vfs.walkComponent] at hstep ⊢
  split_ifs at hstep ⊢
  · exact hstep
  · rwa [hp.walkUp h hcur]
  · have hcross := h.cross_mem hcur
    rw [h.walkDown_eq hcur] at hstep
    rw [h'.walkDown_eq (hsub hcur), hp.cross hcur, hp.type _ hcross]
    split_ifs at hstep with htype
    rw [if_neg htype]
    cases hfind : Vfs.findChild st (st.internal (Vfs.cross st current)) name with
    | none =>
        rw [hfind] at hstep
        cases hstep
    | some c =>
        rw [hfind] at hstep
        rw [hp.findChild h hcross hfind]
        change Except.ok (Vfs.cross st' c) = _
        rw [hp.cross (h.findChild_mem hcross hfind)]
        exact hstep

theorem resolve (h : Tree st T) (h' : Tree st' T') (hsub : T ⊆ T') (hcur : current ∈ T)
    (hres : resolve st current names = .ok w) : Vfs.resolve st' current names = .ok w := by
  induction names generalizing current with
  | nil => exact hres
  | cons name names ih =>
      rw [resolve_cons] at hres ⊢
      cases hstep : Vfs.walkComponent st current name with
      | error c =>
          rw [hstep] at hres
          cases hres
      | ok u =>
          rw [hstep] at hres
          rw [hp.walkComponent h h' hsub hcur hstep]
          exact ih (h.walkComponent_mem hcur hstep) hres

theorem resolvePath (h : Tree st T) (h' : Tree st' T') (hsub : T ⊆ T') (hcwd : cwd = 0 ∨ cwd ∈ T)
    (hres : resolvePath st cwd path = .ok w) : Vfs.resolvePath st' cwd path = .ok w := by
  rw [Vfs.resolvePath] at hres ⊢
  split_ifs at hres with hnone
  rw [if_neg hnone, startVnode, hp.root, ← startVnode]
  refine hp.resolve h h' hsub ?_ hres
  rw [startVnode]
  split_ifs with habs
  · exact h.root
  · exact hcwd.resolve_left fun h0 => hnone ⟨habs, h0⟩

end Walks

end Places

end OscKernel.Vfs
