import OscKernel.PathComposition

/-!
# Where a walk can get to

The parents of a vnode lead to the root, across mounts: the parent of the root of a mount is the vnode
that it is on. A walk that begins below a vnode stays below it until it goes up from there, and no walk
from the root gets to what a mount covers.
-/

namespace OscKernel.Vfs

open Relation

variable {st : State} {T : Set ℕ} {current v w d r : ℕ} {name : List UInt8}
  {names : List (List UInt8)}

def Up (st : State) (v w : ℕ) : Prop := v ≠ st.root ∧ (st.vnodes v).parent = w

def Inside (st : State) (r v : ℕ) : Prop := ReflTransGen (Up st) v r

/-- `v` is `d` or a vnode below it, and the way to `d` does not lead through `r`. -/
def Shut (st : State) (d r v : ℕ) : Prop := ReflTransGen (fun v w => v ≠ r ∧ Up st v w) v d

def LooksUp (st : State) (start : ℕ) (names : List (List UInt8)) (v : ℕ) (name : List UInt8) : Prop :=
  ∃ p q, names = p ++ name :: q ∧ resolve st start p = .ok v

theorem Inside.cases (h : Inside st r v) :
    v = r ∨ v ≠ st.root ∧ Inside st r (st.vnodes v).parent := by
  rcases ReflTransGen.cases_head h with rfl | ⟨w, ⟨hroot, rfl⟩, hw⟩
  · exact Or.inl rfl
  · exact Or.inr ⟨hroot, hw⟩

theorem Inside.of_parent (hroot : v ≠ st.root) (h : Inside st r (st.vnodes v).parent) :
    Inside st r v := ReflTransGen.head ⟨hroot, rfl⟩ h

theorem Shut.cases (h : Shut st d r v) :
    v = d ∨ v ≠ r ∧ v ≠ st.root ∧ Shut st d r (st.vnodes v).parent := by
  rcases ReflTransGen.cases_head h with rfl | ⟨w, ⟨hne, hroot, rfl⟩, hw⟩
  · exact Or.inl rfl
  · exact Or.inr ⟨hne, hroot, hw⟩

theorem Shut.of_parent (hne : v ≠ r) (hroot : v ≠ st.root) (h : Shut st d r (st.vnodes v).parent) :
    Shut st d r v := ReflTransGen.head ⟨hne, hroot, rfl⟩ h

theorem LooksUp.cons (h : LooksUp st v names w name) {first : List UInt8}
    (hstep : walkComponent st current first = .ok v) : LooksUp st current (first :: names) w name := by
  obtain ⟨p, q, rfl, hp⟩ := h
  refine ⟨first :: p, q, rfl, ?_⟩
  rw [resolve_cons, hstep]
  exact hp

theorem LooksUp.head (names : List (List UInt8)) : LooksUp st current (name :: names) current name :=
  ⟨[], names, rfl, rfl⟩

namespace Hierarchy

theorem ne_root (ht : Tree st T) (hm : (st.vnodes v).mount ≠ 0) : v ≠ st.root := by
  rintro rfl
  exact hm ht.rootMount.1

/-- From a vnode with a mount, its parents lead to the vnode that the mount is on, and all of them have
that mount. -/
theorem owner (h : Hierarchy st T) (ht : Tree st T) (hv : v ∈ T) (hm : (st.vnodes v).mount ≠ 0) :
    ReflTransGen (fun x y => (st.vnodes x).mount ≠ 0 ∧ Up st x y) v
      (st.vnodes (st.mounts (st.vnodes v).mount).root).parent := by
  obtain ⟨rank, hrank⟩ := h.rank
  induction hk : rank v using Nat.strong_induction_on generalizing v with
  | _ k ih =>
      subst hk
      have hroot := ne_root ht hm
      rcases h.heir v hv hm with heq | heq
      · rw [heq]
      · have hchain := ih _ (hrank v hv hroot) (ht.parent v hv hroot) (heq ▸ hm) rfl
        rw [heq] at hchain
        exact hchain.head ⟨hm, hroot, rfl⟩

theorem child_ne_root (h : Hierarchy st T) (ht : Tree st T) (hc : current ∈ T)
    (hfind : findChild st (st.internal current) name = some v) :
    (st.vnodes v).parent = current ∧ v ≠ st.root := by
  obtain ⟨i, hi, rfl⟩ := List.mem_map.1 (List.mem_of_find?_eq_some hfind)
  obtain ⟨hparent, hplain⟩ := h.child current hc i (List.mem_range.1 hi)
  refine ⟨hparent, fun hroot => ?_⟩
  rw [hroot, ht.rootMount.2] at hplain
  cases hplain

/-- A walk down: it crosses, goes to a child and crosses again. -/
theorem walkDown_cases (ht : Tree st T) (hc : current ∈ T) (hdown : walkDown st current name = .ok w) :
    ∃ c, findChild st (st.internal (cross st current)) name = some c ∧ w = cross st c := by
  rw [ht.walkDown_eq hc] at hdown
  split_ifs at hdown
  cases hfind : findChild st (st.internal (cross st current)) name with
  | none =>
      rw [hfind] at hdown
      cases hdown
  | some c =>
      rw [hfind] at hdown
      exact ⟨c, rfl, (Except.ok.inj hdown).symm⟩

/-- A walk up ends at the root, at the parent, or at the parent of the vnode that a mount is on. -/
theorem walkUp_cases (hup : walkUp st current = .ok w) :
    (current = st.root ∧ w = st.root) ∨
      (current ≠ st.root ∧ w = (st.vnodes current).parent ∧
        ((st.vnodes w).mount ≠ 0 → (st.mounts (st.vnodes w).mount).root ≠ current)) ∨
      current ≠ st.root ∧ (st.vnodes (st.vnodes current).parent).mount ≠ 0 ∧
        (st.mounts (st.vnodes (st.vnodes current).parent).mount).root = current ∧
        ((st.vnodes current).parent = st.root ∧ w = st.root ∨
          (st.vnodes current).parent ≠ st.root ∧ w = (st.vnodes (st.vnodes current).parent).parent) := by
  simp only [walkUp] at hup
  split_ifs at hup with hroot hnull hmount hproot hpnull
  · exact Or.inl ⟨hroot, (Except.ok.inj hup).symm.trans hroot⟩
  · exact Or.inr (Or.inr ⟨hroot, hmount.1, hmount.2, Or.inl ⟨hproot, (Except.ok.inj hup).symm⟩⟩)
  · exact Or.inr (Or.inr ⟨hroot, hmount.1, hmount.2, Or.inr ⟨hproot, (Except.ok.inj hup).symm⟩⟩)
  · refine Or.inr (Or.inl ⟨hroot, (Except.ok.inj hup).symm, ?_⟩)
    rw [← Except.ok.inj hup]
    exact fun h0 heq => hmount ⟨h0, heq⟩

theorem cross_inside (h : Hierarchy st T) (ht : Tree st T) (hc : current ∈ T)
    (hr : (st.vnodes r).mount = 0) (hin : Inside st r current) : Inside st r (cross st current) := by
  by_cases hm : (st.vnodes current).mount = 0
  · rwa [cross, if_neg (not_not.2 hm)]
  rw [cross, if_pos hm]
  refine Inside.of_parent (h.mountRoot current hc hm).1 ?_
  have hchain := h.owner ht hc hm
  generalize (st.vnodes (st.mounts (st.vnodes current).mount).root).parent = p at hchain ⊢
  clear hm hc
  induction hchain using ReflTransGen.head_induction_on with
  | refl => exact hin
  | head hstep _ ih =>
      obtain ⟨hm, -, rfl⟩ := hstep
      refine ih (hin.cases.resolve_left ?_).2
      rintro rfl
      exact hm hr

theorem walkComponent_inside (h : Hierarchy st T) (ht : Tree st T) (hc : current ∈ T)
    (hr : (st.vnodes r).mount = 0) (hin : Inside st r current)
    (hup : current = r → name ≠ dotDotName) (hstep : walkComponent st current name = .ok w) :
    Inside st r w := by
  rw [walkComponent] at hstep
  split_ifs at hstep with hdot hdotdot
  · exact Except.ok.inj hstep ▸ hin
  · have hne : current ≠ r := fun heq => hup heq hdotdot
    obtain ⟨hroot, hparent⟩ := hin.cases.resolve_left hne
    rcases walkUp_cases hstep with ⟨heq, -⟩ | ⟨-, rfl, -⟩ | ⟨-, hm, -, ⟨heq, -⟩ | ⟨-, rfl⟩⟩
    · exact absurd heq hroot
    · exact hparent
    · exact absurd ht.rootMount.1 (heq ▸ hm)
    · refine (hparent.cases.resolve_left ?_).2
      intro heq
      exact hm (heq ▸ hr)
  · obtain ⟨c, hfind, rfl⟩ := walkDown_cases ht hc hstep
    have hcross := ht.cross_mem hc
    obtain ⟨hparent, hroot⟩ := h.child_ne_root ht hcross hfind
    refine h.cross_inside ht (ht.findChild_mem hcross hfind) hr (Inside.of_parent hroot ?_)
    rw [hparent]
    exact h.cross_inside ht hc hr hin

/-- A walk that does not go up from `r` stays below it. -/
theorem resolve_inside (h : Hierarchy st T) (ht : Tree st T) (hc : current ∈ T)
    (hr : (st.vnodes r).mount = 0) (hin : Inside st r current)
    (hup : ¬ LooksUp st current names r dotDotName) (hres : resolve st current names = .ok w) :
    Inside st r w := by
  induction names generalizing current with
  | nil => exact Except.ok.inj hres ▸ hin
  | cons name names ih =>
      rw [resolve_cons] at hres
      cases hstep : walkComponent st current name with
      | error c =>
          rw [hstep] at hres
          cases hres
      | ok v =>
          rw [hstep] at hres
          have hv := h.walkComponent_inside ht hc hr hin (fun heq hname => hup ?_) hstep
          · exact ih (ht.walkComponent_mem hc hstep) hv (fun hl => hup (hl.cons hstep)) hres
          · rw [← heq, hname]
            exact LooksUp.head names

structure On (st : State) (T : Set ℕ) (d r : ℕ) : Prop where
  mem : d ∈ T
  mount : (st.vnodes d).mount ≠ 0
  root : (st.mounts (st.vnodes d).mount).root = r
  parent : (st.vnodes r).parent = d

theorem On.root_mount (ho : On st T d r) (h : Hierarchy st T) :
    r ≠ st.root ∧ (st.vnodes r).mount = 0 ∧ (st.vnodes r).parentIsMount = true :=
  ho.root ▸ h.mountRoot d ho.mem ho.mount

theorem On.not_shut_root (ho : On st T d r) (h : Hierarchy st T) : ¬ Shut st d r r := by
  intro hs
  rcases hs.cases with heq | ⟨hne, -⟩
  · exact ho.mount (heq ▸ (ho.root_mount h).2.1)
  · exact hne rfl

theorem On.not_shut_top (ho : On st T d r) (ht : Tree st T) : ¬ Shut st d r st.root := by
  intro hs
  rcases hs.cases with heq | ⟨-, hne, -⟩
  · exact ne_root ht ho.mount heq.symm
  · exact hne rfl

theorem cross_not_shut (h : Hierarchy st T) (ht : Tree st T) (ho : On st T d r) (hc : current ∈ T)
    (hnot : ¬ Shut st d r current) : ¬ Shut st d r (cross st current) := by
  by_cases hm : (st.vnodes current).mount = 0
  · rwa [cross, if_neg (not_not.2 hm)]
  rw [cross, if_pos hm]
  intro hs
  rcases hs.cases with heq | ⟨-, -, hparent⟩
  · exact ho.mount (heq ▸ (h.mountRoot current hc hm).2.1)
  refine hnot (ReflTransGen.trans ?_ hparent)
  refine ReflTransGen.mono (fun x y hstep => ⟨?_, hstep.2⟩) _ _ (h.owner ht hc hm)
  rintro rfl
  exact hstep.1 (ho.root_mount h).2.1

/-- A vnode is not above itself. -/
theorem parent_not_shut (h : Hierarchy st T) (ht : Tree st T) (hd : d ∈ T) (hroot : d ≠ st.root) :
    ¬ Shut st d r (st.vnodes d).parent := by
  obtain ⟨rank, hrank⟩ := h.rank
  have hle : ∀ v ∈ T, Shut st d r v → rank d ≤ rank v := by
    intro v hv hs
    induction hs using ReflTransGen.head_induction_on with
    | refl => exact le_rfl
    | head hstep _ ih =>
        obtain ⟨-, hne, rfl⟩ := hstep
        exact (ih (ht.parent _ hv hne)).trans (hrank _ hv hne).le
  exact fun hs => absurd (hle _ (ht.parent d hd hroot) hs) (not_le.2 (hrank d hd hroot))

theorem walkComponent_not_shut (h : Hierarchy st T) (ht : Tree st T) (ho : On st T d r)
    (hc : current ∈ T) (hnot : ¬ Shut st d r current)
    (hstep : walkComponent st current name = .ok w) : ¬ Shut st d r w := by
  rw [walkComponent] at hstep
  split_ifs at hstep with hdot hdotdot
  · exact Except.ok.inj hstep ▸ hnot
  · have hparent : current ≠ r → current ≠ st.root → ¬ Shut st d r (st.vnodes current).parent :=
      fun hne hroot hs => hnot (hs.of_parent hne hroot)
    rcases walkUp_cases hstep with ⟨-, rfl⟩ | ⟨hroot, rfl, hplain⟩ | ⟨hroot, hm, hback, ⟨-, rfl⟩ | ⟨hne, rfl⟩⟩
    · exact ho.not_shut_top ht
    · refine hparent ?_ hroot
      rintro rfl
      rw [ho.parent] at hplain
      exact hplain ho.mount ho.root
    · exact ho.not_shut_top ht
    · by_cases hcr : current = r
      · rw [hcr, ho.parent]
        exact h.parent_not_shut ht ho.mem (ne_root ht ho.mount)
      · refine fun hs => hparent hcr hroot (hs.of_parent ?_ hne)
        intro heq
        exact hm (heq ▸ (ho.root_mount h).2.1)
  · obtain ⟨c, hfind, rfl⟩ := walkDown_cases ht hc hstep
    have hcross := ht.cross_mem hc
    have hfound := ht.findChild_mem hcross hfind
    by_cases hcd : c = d
    · rw [hcd, cross, if_pos ho.mount, ho.root]
      exact ho.not_shut_root h
    refine h.cross_not_shut ht ho hfound fun hs => ?_
    obtain ⟨-, -, hparent⟩ := hs.cases.resolve_left hcd
    rw [(h.child_ne_root ht hcross hfind).1] at hparent
    exact h.cross_not_shut ht ho hc hnot hparent

/-- A walk that begins outside of what a mount covers stays outside. -/
theorem resolve_not_shut (h : Hierarchy st T) (ht : Tree st T) (ho : On st T d r) (hc : current ∈ T)
    (hnot : ¬ Shut st d r current) (hres : resolve st current names = .ok w) : ¬ Shut st d r w := by
  induction names generalizing current with
  | nil => exact Except.ok.inj hres ▸ hnot
  | cons name names ih =>
      rw [resolve_cons] at hres
      cases hstep : walkComponent st current name with
      | error c =>
          rw [hstep] at hres
          cases hres
      | ok v =>
          rw [hstep] at hres
          exact ih (ht.walkComponent_mem hc hstep) (h.walkComponent_not_shut ht ho hc hnot hstep) hres

end Hierarchy

end OscKernel.Vfs
