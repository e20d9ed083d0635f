import OscKernel.MountLaw

/-!
# Going up undoes going down

An absolute walk comes only to vnodes that no mount covers. From such a vnode a step down and a step up lead
back to it: the vnode below is a child of it, or the root of a mount on a child.
-/

namespace OscKernel.Vfs

variable {st : State} {s : Sys} {T : Set ℕ} {current v w t : ℕ} {p n name path : List UInt8}
  {names : List (List UInt8)}

/-- The vnodes that can be seen from the root: a child is seen through its mount. -/
inductive Shown (st : State) : ℕ → Prop
  | root : Shown st st.root
  | child {v c : ℕ} {name : List UInt8} :
      Shown st v → findChild st (st.internal v) name = some c → Shown st (cross st c)

/-- What is seen is not covered. -/
theorem Shown.uncovered (hv : Shown st v) (h : Hierarchy st T) (ht : Tree st T) :
    v ∈ T ∧ (st.vnodes v).mount = 0 := by
  induction hv with
  | root => exact ⟨ht.root, ht.rootMount.1⟩
  | child _ hfind ih =>
      have hc := ht.findChild_mem ih.1 hfind
      refine ⟨ht.cross_mem hc, ?_⟩
      rw [cross]
      split_ifs with hm
      · exact (h.mountRoot _ hc hm).2.1
      · exact not_not.1 hm

namespace Hierarchy

/-- From a child, or from the root of the mount on it, the way up is the directory of the child. -/
theorem walkUp_cross (h : Hierarchy st T) (ht : Tree st T) (hv : v ∈ T) (hm : (st.vnodes v).mount = 0)
    (hfind : findChild st (st.internal v) name = some w) : walkUp st (cross st w) = .ok v := by
  have hw := ht.findChild_mem hv hfind
  have hv0 := ht.ne_zero hv
  obtain ⟨hparent, hroot⟩ := h.child_ne_root ht hv hfind
  rw [cross]
  by_cases hwm : (st.vnodes w).mount = 0
  · have hno : ¬ ((st.vnodes v).mount ≠ 0 ∧ (st.mounts (st.vnodes v).mount).root = w) := fun hc => hc.1 hm
    rw [if_neg (not_not.2 hwm), walkUp, hparent, if_neg hroot, if_neg hv0]
    exact if_neg hno
  · -- A mount that a child shares with its directory would cover the directory, too.
    have hup : (st.vnodes (st.mounts (st.vnodes w).mount).root).parent = w := by
      rcases h.heir w hw hwm with heq | heq
      · exact heq
      · rw [hparent, hm] at heq
        exact absurd heq.symm hwm
    rw [if_pos hwm, walkUp, hup, if_neg (h.mountRoot w hw hwm).1, if_neg (ht.ne_zero hw)]
    dsimp only
    rw [if_pos ⟨hwm, rfl⟩, if_neg hroot, hparent, if_pos hv0]

end Hierarchy

/-- Going down and up again. -/
theorem Shown.walkDown (hv : Shown st v) (h : Hierarchy st T) (ht : Tree st T)
    (hdown : walkDown st v name = .ok w) : Shown st w ∧ walkUp st w = .ok v := by
  obtain ⟨hin, hm⟩ := hv.uncovered h ht
  obtain ⟨c, hfind, rfl⟩ := Hierarchy.walkDown_cases ht hin hdown
  have hself : cross st v = v := if_neg (not_not.2 hm)
  rw [hself] at hfind
  exact ⟨hv.child hfind, h.walkUp_cross ht hin hm hfind⟩

/-- Above what is seen is what is seen. -/
theorem Shown.walkUp (hv : Shown st v) (h : Hierarchy st T) (ht : Tree st T)
    (hup : walkUp st v = .ok w) : Shown st w := by
  cases hv with
  | root =>
      rw [Vfs.walkUp] at hup
      dsimp only at hup
      rw [if_pos rfl] at hup
      rw [← Except.ok.inj hup]
      exact Shown.root
  | child hu hfind =>
      obtain ⟨hin, hm⟩ := hu.uncovered h ht
      rw [h.walkUp_cross ht hin hm hfind] at hup
      rw [← Except.ok.inj hup]
      exact hu

theorem Shown.walkComponent (hv : Shown st v) (h : Hierarchy st T) (ht : Tree st T)
    (hstep : walkComponent st v name = .ok w) : Shown st w := by
  rw [Vfs.walkComponent] at hstep
  split_ifs at hstep
  · rw [← Except.ok.inj hstep]
    exact hv
  · exact hv.walkUp h ht hstep
  · exact (hv.walkDown h ht hstep).1

/-- A walk from what is seen ends at what is seen. -/
theorem Shown.resolve (hv : Shown st v) (h : Hierarchy st T) (ht : Tree st T)
    (hres : resolve st v names = .ok w) : Shown st w := by
  induction names generalizing v with
  | nil =>
      rw [← Except.ok.inj hres]
      exact hv
  | cons name names ih =>
      rw [resolve_cons] at hres
      cases hstep : Vfs.walkComponent st v name with
      | error c =>
          rw [hstep] at hres
          cases hres
      | ok u =>
          rw [hstep] at hres
          exact ih (hv.walkComponent h ht hstep) hres

/-- A path that goes on with one component more. -/
theorem resolvePath_component (hn : components n = [n]) (habs : isAbsolute p) (cwd : ℕ) :
    resolvePath st cwd (p ++ slash :: n) =
      (resolvePath st cwd p).bind fun v => walkComponent st v n := by
  have hp : p ≠ [] := by
    rintro rfl
    cases habs
  have habs' := (isAbsolute_append hp (slash :: n)).trans habs
  have hnone : ∀ q, isAbsolute q = true → ¬ (¬ isAbsolute q = true ∧ cwd = 0) := fun q hq h => h.1 hq
  rw [resolvePath, resolvePath, if_neg (hnone _ habs'), if_neg (hnone _ habs), startVnode, startVnode,
    if_pos habs', if_pos habs, components_append, hn, resolve_append]
  congr 1
  funext v
  rw [resolve_cons]
  cases Vfs.walkComponent st v n with
  | error c => rfl
  | ok w => rfl

theorem shown_resolvePath (h : Hierarchy st T) (ht : Tree st T) (habs : isAbsolute p) {cwd : ℕ}
    (hres : resolvePath st cwd p = .ok v) : Shown st v := by
  rw [resolvePath, if_neg fun hrel => hrel.1 habs, startVnode, if_pos habs] at hres
  exact Shown.root.resolve h ht hres

theorem components_dotDot : components dotDotName = [dotDotName] := rfl

theorem nul_dotDot : (0 : UInt8) ∉ dotDotName := by decide

/-- `p/n/..` names what `p` names. -/
theorem resolvePath_inverse (h : Hierarchy st T) (ht : Tree st T) (habs : isAbsolute p)
    (hn : Plain n) {cwd : ℕ} (hv : resolvePath st cwd p = .ok v)
    (hw : resolvePath st cwd (p ++ slash :: n) = .ok w) :
    resolvePath st cwd (p ++ slash :: (n ++ slash :: dotDotName)) = .ok v := by
  have hp : p ≠ [] := by
    rintro rfl
    cases habs
  have habs' : isAbsolute (p ++ slash :: n) = true := (isAbsolute_append hp (slash :: n)).trans habs
  have hdown : Vfs.walkDown st v n = .ok w := by
    rw [resolvePath_component hn.components habs, hv] at hw
    change Vfs.walkComponent st v n = .ok w at hw
    rwa [Vfs.walkComponent, if_neg hn.notDot, if_neg hn.notDotDot] at hw
  rw [← List.cons_append, ← List.append_assoc, resolvePath_component components_dotDot habs', hw]
  exact ((shown_resolvePath h ht habs hv).walkDown h ht hdown).2

/-- The lookup of `p/n/..` finds the vnode of `p` wherever the mounts are, and `..` from the root finds the
root. -/
theorem dotDot_undoes_descent (h : s.Reachable) (t : ℕ) (hp0 : (0 : UInt8) ∉ p) (habs : isAbsolute p)
    (hv : LookupFinds s.st (s.tasks t).cwd p v) :
    (∀ n w, Plain n → (s.st.internal v).type = .directory →
      LookupFinds s.st (s.tasks t).cwd (p ++ slash :: n) w →
      CopyOk s.st (p ++ slash :: (n ++ slash :: dotDotName)) →
      LookupFinds s.st (s.tasks t).cwd (p ++ slash :: (n ++ slash :: dotDotName)) v) ∧
    (v = s.st.root → CopyOk s.st (p ++ slash :: dotDotName) →
      LookupFinds s.st (s.tasks t).cwd (p ++ slash :: dotDotName) v) := by
  obtain ⟨T, hinv, hh, -⟩ := h.whole
  have hres := ((lookupFinds_iff hp0).1 hv).2
  constructor
  · intro n w hn _ hw hcopy
    have hpn0 : (0 : UInt8) ∉ p ++ slash :: n := by
      simp only [List.mem_append, List.mem_cons, not_or]
      exact ⟨hp0, by decide, hn.nul⟩
    have hall0 : (0 : UInt8) ∉ p ++ slash :: (n ++ slash :: dotDotName) := by
      simp only [List.mem_append, List.mem_cons, not_or]
      exact ⟨hp0, by decide, hn.nul, by decide, nul_dotDot⟩
    refine (lookupFinds_iff hall0).2 ⟨hcopy, ?_⟩
    exact resolvePath_inverse hh hinv.tree habs hn hres ((lookupFinds_iff hpn0).1 hw).2
  · rintro rfl hcopy
    have hall0 : (0 : UInt8) ∉ p ++ slash :: dotDotName := by
      simp only [List.mem_append, List.mem_cons, not_or]
      exact ⟨hp0, by decide, nul_dotDot⟩
    refine (lookupFinds_iff hall0).2 ⟨hcopy, ?_⟩
    rw [resolvePath_component components_dotDot habs, hres]
    exact if_pos rfl

/-- A tmpfs is mounted on `/a`: the way from its root up is the way to the root. -/
theorem dotDot_undoes_mount :
    LookupFinds Sys.covered.st (Sys.covered.tasks 0).cwd [47, 47, 97, 47, 46, 46] Sys.covered.st.root := by
  have hroot : (lookupPath Sys.covered.st (Sys.covered.tasks 0).cwd [47]).2 =
      (0, Sys.covered.st.root) := by decide
  have hdir : (lookupPath Sys.covered.st (Sys.covered.tasks 0).cwd [47, 47, 97]).2.1 = 0 := by
    decide
  exact (dotDot_undoes_descent Sys.covered_reachable 0 (p := [47]) (by decide) (by decide) hroot).1 [97] _
    ⟨by decide, by decide, by decide, by decide, by decide⟩ (by decide) (Prod.ext hdir rfl)
    (by decide)

/-- The root of an initramfs on `/a` has come from a block that held the child `x`, and the parent of that
vnode is null. -/
theorem dotDot_leaves_initramfs : ¬ ∀ (s : Sys) (t : ℕ) (p n : List UInt8) (v w : ℕ), s.Called →
    (0 : UInt8) ∉ p → isAbsolute p → LookupFinds s.st (s.tasks t).cwd p v → Plain n →
      (s.st.internal v).type = .directory → LookupFinds s.st (s.tasks t).cwd (p ++ slash :: n) w →
      CopyOk s.st (p ++ slash :: (n ++ slash :: dotDotName)) →
      LookupFinds s.st (s.tasks t).cwd (p ++ slash :: (n ++ slash :: dotDotName)) v := by
  intro hall
  have hdir : (lookupPath Sys.stale.st (Sys.stale.tasks 0).cwd [47, 97]).2.1 = 0 := by decide
  have hchild : (lookupPath Sys.stale.st (Sys.stale.tasks 0).cwd [47, 97, 47, 120]).2 = (0, 0x3000000) := by
    decide
  have hup := hall Sys.stale 0 [47, 97] [120] _ 0x3000000 Sys.stale_called (by decide) (by decide)
    (Prod.ext hdir rfl) ⟨by decide, by decide, by decide, by decide, by decide⟩ (by decide) hchild
    (by decide)
  have hcode : (lookupPath Sys.stale.st (Sys.stale.tasks 0).cwd [47, 97, 47, 120, 47, 46, 46]).2.1 =
      einterr := by decide
  have hzero : (0 : ℤ) = einterr := (congrArg Prod.fst hup).symm.trans hcode
  exact absurd hzero (by decide)

end OscKernel.Vfs
