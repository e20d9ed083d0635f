import OscKernel.MountWalk
import OscKernel.OpenOutcomes

/-!
# What a mount covers

A mount on `d` hides what is below `d` and puts the root `r` of the new file system in its place: a walk
that comes to `d` goes on from `r`, and every other walk is as before.
-/

namespace OscKernel.Vfs

open Relation

variable {st st' : State} {s s₁ s' : Sys} {T T' : Set ℕ} {current v w d r t cwd : ℕ}
  {name path : List UInt8} {names : List (List UInt8)}

/-- `st'` is `st` with a new file system on `d`, whose root `r` is an empty directory. -/
structure Covered (st st' : State) (T : Set ℕ) (d r : ℕ) : Prop where
  mem : d ∈ T
  free : (st.vnodes d).mount = 0
  plain : (st.vnodes d).parentIsMount = false
  fresh : r ∉ T
  root : st'.root = st.root
  parent : ∀ w ∈ T, (st'.vnodes w).parent = (st.vnodes w).parent
  internal : ∀ w ∈ T, st'.internal w = st.internal w
  mount : ∀ w ∈ T, w ≠ d → (st'.vnodes w).mount = (st.vnodes w).mount
  mounts : ∀ w ∈ T, (st.vnodes w).mount ≠ 0 →
    (st'.mounts (st.vnodes w).mount).root = (st.mounts (st.vnodes w).mount).root
  mounted : (st'.vnodes d).mount ≠ 0 ∧ (st'.mounts (st'.vnodes d).mount).root = r
  new : (st'.vnodes r).mount = 0 ∧ (st'.vnodes r).parent = d ∧ (st'.vnodes r).parentIsMount = true
  empty : (st'.internal r).numChildren = 0 ∧ (st'.internal r).type = .directory

theorem Mounted.covered (h : Tree st T) (hd : d ∈ T) (hmount : (st.vnodes d).mount = 0)
    (hplain : (st.vnodes d).parentIsMount = false) {m n fs : ℕ} (hm : m ≠ 0)
    (hmounted : Mounted st st' d m r n fs .tmpfs) : Covered st st' T d r := by
  have hf := hmounted.frame h hd
  refine ⟨hd, hmount, hplain, hf.fresh, hf.root, fun w hw => ?_, hf.internal, fun w hw hne => ?_, hf.mounts,
    ?_, hf.new, hf.empty, ?_⟩
  · by_cases hwd : w = d
    · rw [hwd, hf.self]
    · rw [hf.vnode w hw hwd]
  · rw [hf.vnode w hw hne]
  · rw [hf.self]
    exact ⟨hm, hf.mountRoot⟩
  · obtain ⟨st₁, hset, rfl⟩ := hmounted
    rw [State.internal, State.vnodes_setVnode_self]
    change (st₁.nodes (st₁.vnodes r).internal).type = .directory
    rw [hset.vnode.2.2.2.1]
    exact hset.directory rfl

theorem findChild_congr (h : Tree st T) (hw : w ∈ T)
    (hint : ∀ w ∈ T, st'.internal w = st.internal w) (name : List UInt8) :
    findChild st' (st'.internal w) name = findChild st (st.internal w) name := by
  rw [hint w hw, findChild, findChild]
  exact find_name_congr name fun c hc => by rw [hint c (h.children_mem hw c hc)]

def lift (d r v : ℕ) : ℕ := if v = d then r else v

theorem lift_of_ne (h : v ≠ d) : lift d r v = v := if_neg h

def visits (st : State) : ℕ → List (List UInt8) → List ℕ
  | current, [] => [current]
  | current, name :: names =>
      current ::
        match walkComponent st current name with
        | .error _ => []
        | .ok v => visits st v names

theorem mem_visits (st : State) (current : ℕ) (names : List (List UInt8)) :
    current ∈ visits st current names := by
  cases names <;> exact List.mem_cons_self ..

namespace Covered

variable (hc : Covered st st' T d r)
include hc

theorem ne_root (h : Tree st T) : d ≠ st.root := by
  rintro rfl
  have hplain := hc.plain
  rw [h.rootMount.2] at hplain
  cases hplain

theorem cross (hh : Hierarchy st T) (hw : w ∈ T) :
    cross st' w = lift d r (cross st w) := by
  by_cases hwd : w = d
  · subst hwd
    rw [Vfs.cross, if_pos hc.mounted.1, hc.mounted.2, Vfs.cross, if_neg (not_not.2 hc.free), lift,
      if_pos rfl]
  rw [Vfs.cross, Vfs.cross, hc.mount w hw hwd]
  split_ifs with hm
  · rw [hc.mounts w hw hm, lift_of_ne]
    intro heq
    have htrue := (hh.mountRoot w hw hm).2.2
    rw [heq, hc.plain] at htrue
    cases htrue
  · exact (lift_of_ne hwd).symm

theorem cross_ne (hh : Hierarchy st T) (hw : w ∈ T) (hwd : w ≠ d) : Vfs.cross st w ≠ d := by
  rw [Vfs.cross]
  split_ifs with hm
  · intro heq
    have htrue := (hh.mountRoot w hw hm).2.2
    rw [heq, hc.plain] at htrue
    cases htrue
  · exact hwd

theorem walkDown (h : Tree st T) (hh : Hierarchy st T) (h' : Tree st' T') (hsub : T ⊆ T')
    (hw : w ∈ T) (hwd : w ≠ d) (name : List UInt8) :
    walkDown st' w name = (Vfs.walkDown st w name).map (lift d r) := by
  have hx := h.cross_mem hw
  rw [h'.walkDown_eq (hsub hw), h.walkDown_eq hw, hc.cross hh hw, lift_of_ne (hc.cross_ne hh hw hwd),
    findChild_congr h hx hc.internal, hc.internal _ hx]
  split_ifs with htype
  · rfl
  cases hfind : findChild st (st.internal (Vfs.cross st w)) name with
  | none => rfl
  | some c => exact congrArg Except.ok (hc.cross hh (h.findChild_mem hx hfind))

theorem walkUp (h : Tree st T) (hw : w ∈ T) : walkUp st' w = Vfs.walkUp st w := by
  rw [Vfs.walkUp, Vfs.walkUp, hc.root]
  by_cases hroot : w = st.root
  · rw [if_pos hroot, if_pos hroot]
  rw [if_neg hroot, if_neg hroot, hc.parent w hw]
  have hp := h.parent w hw hroot
  have hp0 : (st.vnodes w).parent ≠ 0 := h.ne_zero hp
  rw [if_neg hp0, if_neg hp0]
  dsimp only
  by_cases hpd : (st.vnodes w).parent = d
  · have hne : ¬ ((st'.vnodes (st.vnodes w).parent).mount ≠ 0 ∧
        (st'.mounts (st'.vnodes (st.vnodes w).parent).mount).root = w) := by
      rintro ⟨-, heq⟩
      rw [hpd, hc.mounted.2] at heq
      exact hc.fresh (heq ▸ hw)
    rw [if_neg hne, if_neg]
    rw [hpd]
    exact fun hm => hm.1 hc.free
  · rw [hc.mount _ hp hpd, hc.parent _ hp]
    by_cases hm : (st.vnodes (st.vnodes w).parent).mount = 0
    · simp only [hm, ne_eq, not_true_eq_false, false_and, if_false]
    · rw [hc.mounts _ hp hm]

/-- Going up from the new root is going up from where it is mounted. -/
theorem walkUp_root (h : Tree st T) (hh : Hierarchy st T) : Vfs.walkUp st' r = Vfs.walkUp st d := by
  have hroot := hc.ne_root h
  have hp := h.parent d hc.mem hroot
  have hp0 : (st.vnodes d).parent ≠ 0 := h.ne_zero hp
  have hrroot : r ≠ st'.root := by
    rw [hc.root]
    rintro rfl
    exact hc.fresh h.root
  have hdroot : d ≠ st'.root := by rwa [hc.root]
  have hplain : ¬ ((st.vnodes (st.vnodes d).parent).mount ≠ 0 ∧
      (st.mounts (st.vnodes (st.vnodes d).parent).mount).root = d) := by
    rintro ⟨hm, heq⟩
    have htrue := (hh.mountRoot _ hp hm).2.2
    rw [heq, hc.plain] at htrue
    cases htrue
  simp only [Vfs.walkUp, hc.new.2.1, if_neg hrroot, if_neg (h.ne_zero hc.mem), if_pos hc.mounted,
    if_neg hdroot, hc.parent d hc.mem, if_neg hroot, if_neg hp0, if_neg hplain, if_pos hp0]

theorem walkComponent_same (h : Tree st T) (hh : Hierarchy st T) (h' : Tree st' T') (hsub : T ⊆ T')
    (hw : w ∈ T) (hwd : w ≠ d) (hne : ∀ v, walkComponent st w name = .ok v → v ≠ d) :
    walkComponent st' w name = Vfs.walkComponent st w name := by
  rw [Vfs.walkComponent] at hne ⊢
  rw [Vfs.walkComponent, hc.walkUp h hw, hc.walkDown h hh h' hsub hw hwd]
  by_cases hdot : name = dotName
  · rw [if_pos hdot, if_pos hdot]
  by_cases hdotdot : name = dotDotName
  · rw [if_neg hdot, if_neg hdot, if_pos hdotdot, if_pos hdotdot]
  rw [if_neg hdot, if_neg hdotdot] at hne ⊢
  rw [if_neg hdot, if_neg hdotdot]
  cases hdown : Vfs.walkDown st w name with
  | error c => rfl
  | ok v => exact congrArg Except.ok (lift_of_ne (hne v hdown))

/-- A walk that does not come to `d` is as before. -/
theorem resolve_same (h : Tree st T) (hh : Hierarchy st T) (h' : Tree st' T') (hsub : T ⊆ T')
    (hw : current ∈ T) (hnot : d ∉ visits st current names) :
    resolve st' current names = Vfs.resolve st current names := by
  induction names generalizing current with
  | nil => rfl
  | cons name names ih =>
      rw [visits, List.mem_cons, not_or] at hnot
      have hwd : current ≠ d := fun heq => hnot.1 heq.symm
      have hstep : walkComponent st' current name = Vfs.walkComponent st current name := by
        refine hc.walkComponent_same h hh h' hsub hw hwd fun v hv heq => ?_
        rw [hv] at hnot
        exact hnot.2 (heq ▸ mem_visits st v names)
      rw [resolve_cons, resolve_cons, hstep]
      cases hv : Vfs.walkComponent st current name with
      | error c => rfl
      | ok v =>
          rw [hv] at hnot
          exact ih (h.walkComponent_mem hw hv) hnot.2

/-- A step of a walk that does not go down from `d`. -/
theorem walkComponent_lift (h : Tree st T) (hh : Hierarchy st T) (h' : Tree st' T')
    (hh' : Hierarchy st' T') (hsub : T ⊆ T') (hr : r ∈ T') (hw : w ∈ T)
    (hshut : ¬ Shut st' d r (lift d r w)) (hname : w = d → name = dotName ∨ name = dotDotName)
    (hstep : walkComponent st w name = .ok v) :
    walkComponent st' (lift d r w) name = .ok (lift d r v) := by
  have hon : Hierarchy.On st' T' d r :=
    ⟨hsub hc.mem, hc.mounted.1, hc.mounted.2, hc.new.2.1⟩
  have hself : Shut st' d r d := ReflTransGen.refl
  rw [Vfs.walkComponent] at hstep ⊢
  by_cases hdot : name = dotName
  · rw [if_pos hdot] at hstep ⊢
    rw [Except.ok.inj hstep]
  rw [if_neg hdot] at hstep ⊢
  by_cases hdotdot : name = dotDotName
  · rw [if_pos hdotdot] at hstep ⊢
    have hup : Vfs.walkUp st' (lift d r w) = .ok v := by
      by_cases hwd : w = d
      · rw [hwd, lift, if_pos rfl, hc.walkUp_root h hh, ← hwd, hstep]
      · rw [lift_of_ne hwd, hc.walkUp h hw, hstep]
    have hlift : lift d r w ∈ T' := by
      rw [lift]
      split_ifs
      · exact hr
      · exact hsub hw
    have hwalk : Vfs.walkComponent st' (lift d r w) name = .ok v := by
      rw [Vfs.walkComponent, if_neg hdot, if_pos hdotdot, hup]
    have hnot := hh'.walkComponent_not_shut h' hon hlift hshut hwalk
    rw [hup, lift_of_ne]
    rintro rfl
    exact hnot hself
  · rw [if_neg hdotdot] at hstep ⊢
    have hwd : w ≠ d := fun heq => (hname heq).elim hdot hdotdot
    rw [lift_of_ne hwd, hc.walkDown h hh h' hsub hw hwd, hstep]
    rfl

/-- A walk that does not go down from `d` ends where it did, and at the new root if that was `d`. -/
theorem resolve_lift (h : Tree st T) (hh : Hierarchy st T) (h' : Tree st' T')
    (hh' : Hierarchy st' T') (hsub : T ⊆ T') (hr : r ∈ T') (hw : current ∈ T)
    (hshut : ¬ Shut st' d r (lift d r current))
    (hnames : ∀ n, LooksUp st current names d n → n = dotName ∨ n = dotDotName)
    (hres : resolve st current names = .ok v) :
    resolve st' (lift d r current) names = .ok (lift d r v) := by
  have hon : Hierarchy.On st' T' d r :=
    ⟨hsub hc.mem, hc.mounted.1, hc.mounted.2, hc.new.2.1⟩
  induction names generalizing current with
  | nil => rw [resolve_nil, Except.ok.inj hres]
  | cons name names ih =>
      rw [resolve_cons] at hres ⊢
      cases hstep : Vfs.walkComponent st current name with
      | error c =>
          rw [hstep] at hres
          cases hres
      | ok x =>
          rw [hstep] at hres
          have hname : current = d → name = dotName ∨ name = dotDotName := by
            rintro rfl
            exact hnames name (LooksUp.head names)
          have hnext := hc.walkComponent_lift h hh h' hh' hsub hr hw hshut hname hstep
          have hlift : lift d r current ∈ T' := by
            rw [lift]
            split_ifs
            · exact hr
            · exact hsub hw
          rw [hnext]
          exact ih (h.walkComponent_mem hw hstep)
            (hh'.walkComponent_not_shut h' hon hlift hshut hnext)
            (fun n hl => hnames n (hl.cons hstep)) hres

end Covered

end OscKernel.Vfs
