import OscKernel.VfsPlaces
import OscKernel.VfsSystem

/-!
# Creation and lookup

A creation changes nothing on the way to the directory it works in, and that directory finds the new
vnode under its name.
-/

namespace OscKernel.Vfs

variable {st st₁ st' : State} {T : Set ℕ} {v w dir cwd current : ℕ} {name path : List UInt8}
  {names : List (List UInt8)} {type : NodeType} {bs : List (ℕ × ℕ)}

structure CreateFrame (st st' : State) (T : Set ℕ) (dir v : ℕ) (name : List UInt8) : Prop where
  fresh : v ∉ T
  root : st'.root = st.root
  vnode : ∀ w ∈ T, st'.vnodes w = st.vnodes w
  mount : ∀ w ∈ T, (st.vnodes w).mount ≠ 0 →
    st'.mounts (st.vnodes w).mount = st.mounts (st.vnodes w).mount
  other : ∀ w ∈ T, w ≠ dir → st'.internal w = st.internal w
  self : st'.internal dir = (st.internal dir).append v
  new : (st'.vnodes v).mount = (st.vnodes dir).mount ∧ (st'.internal v).name = name

theorem Created.frame (h : Tree st T) (hd : dir ∈ T) (hc : Created st st' dir v name type) :
    CreateFrame st st' T dir v name := by
  have ha := hc.appended h.ownNodes hd
  obtain ⟨hv, st₁, n, data, hn, rfl, hext, hvnode, hnode⟩ := hc
  refine ⟨ha.fresh, (Grows.extend h hext).root, ha.vnode, fun w hw hm => ?_, ha.other, ha.self, ?_,
    ha.name⟩
  · exact hext.mount _ (h.mount w hw hm).1
  · change (st₁.vnodes v).mount = _
    rw [hvnode]

namespace CreateFrame

variable (hf : CreateFrame st st' T dir v name)
include hf

theorem appended : Appended st st' T dir v name :=
  ⟨hf.fresh, hf.vnode, hf.other, hf.self, hf.new.2⟩

theorem findChild_other (h : Tree st T) (hw : w ∈ T) (hne : w ≠ dir) (name' : List UInt8) :
    findChild st' (st'.internal w) name' = findChild st (st.internal w) name' := by
  rw [hf.other w hw hne, findChild, findChild]
  exact find_name_congr name' fun c hc => hf.appended.childName (h.children_mem hw c hc)

theorem findChild_dir (h : Tree st T) (hd : dir ∈ T) (name' : List UInt8) :
    findChild st' (st'.internal dir) name' =
      (findChild st (st.internal dir) name').or (if name = name' then some v else none) :=
  hf.appended.findChild_dir name' (h.child dir hd)

theorem childList (w : ℕ) (hw : w ∈ T) : childList st w <+: childList st' w := by
  by_cases hne : w = dir
  · rw [hne, Vfs.childList, Vfs.childList, hf.self, Node.children_append]
    exact List.prefix_append ..
  · rw [Vfs.childList, Vfs.childList, hf.other w hw hne]

theorem places : Places st st' T where
  root := hf.root
  parent w hw := by rw [hf.vnode w hw]
  mount w hw := by rw [hf.vnode w hw]
  mountRoot w hw hm := by rw [hf.mount w hw hm]
  name w hw := hf.appended.childName hw
  type w hw := by
    by_cases hne : w = dir
    · rw [hne, hf.self]
      rfl
    · rw [hf.other w hw hne]
  children w hw := hf.childList w hw

end CreateFrame

theorem lastSlash_none {n : ℕ} (hlast : lastSlash path n = none) : ∀ j < n, path[j]? ≠ some slash := by
  induction n with
  | zero => exact fun j hj => absurd hj (Nat.not_lt_zero j)
  | succ n ih =>
      rw [lastSlash] at hlast
      split_ifs at hlast with hn
      intro j hj
      rcases Nat.lt_succ_iff_lt_or_eq.1 hj with hlt | rfl
      · exact ih hlast j hlt
      · exact hn

theorem lastSlash_some {n i : ℕ} (hlast : lastSlash path n = some i) :
    path[i]? = some slash ∧ ∀ j < n, i < j → path[j]? ≠ some slash := by
  induction n with
  | zero => cases hlast
  | succ n ih =>
      rw [lastSlash] at hlast
      split_ifs at hlast with hn
      · obtain rfl := Option.some.inj hlast
        exact ⟨hn, fun j hj hij => by omega⟩
      · refine ⟨(ih hlast).1, fun j hj hij => ?_⟩
        rcases Nat.lt_succ_iff_lt_or_eq.1 hj with hlt | rfl
        · exact (ih hlast).2 j hlt hij
        · exact hn

/-- The path is cut at its last slash. -/
theorem path_split {i : ℕ} (hlast : lastSlash path path.length = some i) :
    path = path.take i ++ slash :: newName path ∧ slash ∉ newName path := by
  obtain ⟨hi, hafter⟩ := lastSlash_some hlast
  have hname : newName path = path.drop (i + 1) := by rw [newName, hlast]; rfl
  obtain ⟨hlt, hget⟩ := List.getElem?_eq_some_iff.1 hi
  refine ⟨?_, fun hmem => ?_⟩
  · rw [hname, ← hget, ← List.drop_eq_getElem_cons hlt, List.take_append_drop]
  · rw [hname] at hmem
    obtain ⟨j, hj, hjget⟩ := List.getElem_of_mem hmem
    rw [List.getElem_drop] at hjget
    rw [List.length_drop] at hj
    exact hafter (i + 1 + j) (by omega) (by omega)
      (List.getElem?_eq_some_iff.2 ⟨by omega, hjget⟩)

theorem newName_of_none (hlast : lastSlash path path.length = none) :
    newName path = path ∧ slash ∉ path := by
  refine ⟨by rw [newName, hlast]; rfl, fun hmem => ?_⟩
  obtain ⟨j, hj, hjget⟩ := List.getElem_of_mem hmem
  exact lastSlash_none hlast j hj (List.getElem?_eq_some_iff.2 ⟨hj, hjget⟩)

/-- A path names what its last component names in the directory of the path. -/
theorem resolvePath_newName (hname : newName path ≠ []) :
    resolvePath st cwd path =
      if lastSlash path path.length = none ∧ cwd = 0 then .error einterr
      else (resolveParent st cwd path).bind fun d => walkComponent st d (newName path) := by
  have hsingle : slash ∉ newName path → components (newName path) = [newName path] := fun h =>
    CStrings.tokens_of_not_mem h hname
  have hwalk : ∀ d, resolve st d [newName path] = walkComponent st d (newName path) := by
    intro d
    rw [resolve_cons]
    cases walkComponent st d (newName path) <;> rfl
  rcases hlast : lastSlash path path.length with _ | i
  · obtain ⟨hnew, hmem⟩ := newName_of_none hlast
    have hrel : ¬ isAbsolute path := by
      rw [isAbsolute, decide_eq_true_eq]
      exact fun hhead => hmem (List.mem_of_mem_head? hhead)
    have hparent : resolveParent st cwd path = .ok cwd := by rw [resolveParent, parentPath, hlast]
    rw [hparent, resolvePath]
    by_cases h0 : cwd = 0
    · rw [if_pos ⟨hrel, h0⟩, if_pos ⟨rfl, h0⟩]
    · rw [if_neg fun h => h0 h.2, if_neg fun h => h0 h.2, startVnode, if_neg hrel]
      have hcomp : components path = [newName path] := by
        rw [← hsingle (hnew.symm ▸ hmem), hnew]
      rw [hcomp, hwalk]
      rfl
  · obtain ⟨hsplit, hmem⟩ := path_split hlast
    have hcomp : components path = components (path.take i) ++ [newName path] := by
      conv_lhs => rw [hsplit, components, CStrings.tokens_append]
      rw [← hsingle hmem]
      rfl
    rw [if_neg fun h => by cases h.1]
    cases i with
    | zero =>
        have habs : isAbsolute path := by
          rw [hsplit]
          rfl
        have hparent : resolveParent st cwd path = .ok st.root := by
          rw [resolveParent, parentPath, hlast]
          rfl
        rw [hparent, resolvePath, if_neg fun h => h.1 habs, startVnode, if_pos habs, hcomp]
        exact hwalk st.root
    | succ i =>
        have hparent : resolveParent st cwd path = resolvePath st cwd (path.take (i + 1)) := by
          rw [resolveParent, parentPath, hlast]
        have habs : isAbsolute path = isAbsolute (path.take (i + 1)) := by
          cases path <;> rfl
        rw [hparent, resolvePath, resolvePath, startVnode, startVnode, habs]
        split_ifs with hnone
        · rfl
        all_goals
          rw [hcomp, resolve_append]
          congr 1
          exact funext hwalk

/-- In its directory the new vnode is found unless its name is special or the directory is covered. -/
theorem CreateFrame.walk_new (hf : CreateFrame st st' T dir v name) (h : Tree st T)
    (h' : Tree st' (Insert.insert v T)) (hd : dir ∈ T) (hcan : CanCreate st dir name) :
    Vfs.walkComponent st' dir name = .ok v ↔
      name ≠ dotName ∧ name ≠ dotDotName ∧ (st.vnodes dir).mount = 0 := by
  have hne : ∀ w ∈ T, w ≠ v := fun w hw heq => hf.fresh (heq ▸ hw)
  rw [Vfs.walkComponent]
  by_cases hdot : name = dotName
  · rw [if_pos hdot]
    exact iff_of_false (fun heq => hne dir hd (Except.ok.inj heq)) fun hall => hall.1 hdot
  rw [if_neg hdot]
  by_cases hdotdot : name = dotDotName
  · rw [if_pos hdotdot, hf.places.walkUp h hd]
    exact iff_of_false (fun heq => hne v (h.walkUp_mem hd heq) rfl) fun hall => hall.2.1 hdotdot
  rw [if_neg hdotdot, h'.walkDown_eq (Or.inr hd), hf.places.cross hd]
  have hcross := h.cross_mem hd
  have hmount := hf.new.1
  by_cases hm : (st.vnodes dir).mount = 0
  · refine iff_of_true ?_ ⟨hdot, hdotdot, hm⟩
    have hself : Vfs.cross st dir = dir := if_neg (not_not.2 hm)
    have hnew : Vfs.cross st' v = v := if_neg (not_not.2 (hmount.trans hm))
    rw [hself, if_neg (not_not.2 ((hf.places.type _ hd).trans hcan.directory)), hf.findChild_dir h hd,
      hcan.absent, if_pos rfl]
    exact congrArg Except.ok hnew
  · refine iff_of_false (fun heq => ?_) fun hall => hm hall.2.2
    split_ifs at heq
    by_cases hself : Vfs.cross st dir = dir
    · have hnew : Vfs.cross st' v = dir := by
        rw [← hself, Vfs.cross, Vfs.cross, if_pos (hmount ▸ hm), if_pos hm, hmount, hf.mount dir hd hm]
      rw [hself, hf.findChild_dir h hd, hcan.absent, if_pos rfl] at heq
      exact hne dir hd (hnew.symm.trans (Except.ok.inj heq))
    · rw [hf.findChild_other h hcross hself] at heq
      cases hfind : findChild st (st.internal (Vfs.cross st dir)) name with
      | none =>
          rw [hfind] at heq
          cases heq
      | some c =>
          rw [hfind] at heq
          have hc := h.findChild_mem hcross hfind
          have hv : Vfs.cross st' c = v := Except.ok.inj heq
          rw [hf.places.cross hc] at hv
          exact hne _ (h.cross_mem hc) hv

def NamesNew (st : State) (cwd : ℕ) (path : List UInt8) : Prop :=
  (lastSlash path path.length = none → cwd ≠ 0) ∧ newName path ≠ dotName ∧
    newName path ≠ dotDotName ∧
    ∀ dir, resolveParent st cwd path = .ok dir → (st.vnodes dir).mount = 0

/-- When a lookup in `st'`, right after a creation in `st`, finds what was created. -/
def AgreesWhen (st st' : State) (cwd : ℕ) (path : List UInt8) : Prop :=
  CopyOk st' path ∧ NamesNew st cwd path

def LookupFinds (st : State) (cwd : ℕ) (path : List UInt8) (v : ℕ) : Prop :=
  (lookupPath st cwd path).2 = (0, v)

theorem lookupFinds_iff (hnul : (0 : UInt8) ∉ path) :
    LookupFinds st cwd path v ↔ CopyOk st path ∧ resolvePath st cwd path = .ok v := by
  by_cases hcopy : CopyOk st path
  · rw [LookupFinds, lookupPath_spec hnul hcopy]
    cases hres : resolvePath st cwd path with
    | error c =>
        refine iff_of_false (fun heq => ?_) fun h => nomatch h.2
        exact (resolvePath_error hres).ne (Prod.mk.inj heq).1
    | ok w =>
        rw [leftoverPath_of_ok hres]
        constructor
        · exact fun heq => ⟨hcopy, congrArg Except.ok (Prod.mk.inj heq).2⟩
        · exact fun h => Prod.ext rfl (Except.ok.inj h.2)
  · rw [LookupFinds, lookupPath_no_copy hcopy]
    refine iff_of_false (fun heq => ?_) fun h => hcopy h.1
    exact absurd (Prod.mk.inj heq).1 (by decide)

def Creates (st st' : State) (dir v : ℕ) (name : List UInt8) (type : NodeType) : Prop :=
  ∃ st₁ st₂ bs, Extends st st₁ [] ∧ SameTree st st₁ ∧ CanCreate st₁ dir name ∧
    Created st₁ st₂ dir v name type ∧ Opens st₂ st' bs

theorem Creates.resolves (h : Tree st T) (hcwd : cwd = 0 ∨ cwd ∈ T)
    (hd : dir ∈ T) (hparent : resolveParent st (openCwd st cwd path) path = .ok dir)
    (hc : Creates st st' dir v (newName path) type) :
    resolvePath st' cwd path = .ok v ↔ NamesNew st cwd path := by
  obtain ⟨st₁, st₂, bs, hext, hsame, hcan, hcreated, hopens⟩ := hc
  have h₁ := h.extend hext
  have h₂ := h₁.created hd hcreated
  have hf := hcreated.frame h₁ hd
  rw [hopens.same.resolvePath, resolvePath_newName hcan.named, NamesNew]
  by_cases hnone : lastSlash path path.length = none ∧ cwd = 0
  · rw [if_pos hnone]
    exact iff_of_false nofun fun hall => hall.1 hnone.1 hnone.2
  rw [openCwd, if_neg hnone] at hparent
  have hparent₂ : resolveParent st₂ cwd path = .ok dir := by
    rw [← hsame.resolveParent] at hparent
    rw [resolveParent] at hparent ⊢
    cases hp : parentPath path with
    | none =>
        rw [hp] at hparent
        exact hparent
    | some p =>
        rw [hp] at hparent
        exact hf.places.resolvePath h₁ h₂ (Set.subset_insert ..) hcwd hparent
  have hdirs : (∀ d, resolveParent st cwd path = .ok d → (st.vnodes d).mount = 0) ↔
      (st.vnodes dir).mount = 0 := by
    refine ⟨fun hall => hall dir hparent, fun h0 d hd' => ?_⟩
    rw [hparent] at hd'
    rwa [← Except.ok.inj hd']
  rw [if_neg hnone, hparent₂, hdirs]
  change Vfs.walkComponent st₂ dir (newName path) = .ok v ↔ _
  rw [hf.walk_new h₁ h₂ hd hcan, hsame.vnodes]
  exact ⟨fun hall => ⟨fun hlast h0 => hnone ⟨hlast, h0⟩, hall⟩, fun hall => hall.2⟩

theorem Creates.agrees (h : Tree st T) (hcwd : cwd = 0 ∨ cwd ∈ T) (hnul : (0 : UInt8) ∉ path)
    (hd : dir ∈ T) (hparent : resolveParent st (openCwd st cwd path) path = .ok dir)
    (hc : Creates st st' dir v (newName path) type) :
    LookupFinds st' cwd path v ↔ AgreesWhen st st' cwd path := by
  rw [lookupFinds_iff hnul, hc.resolves h hcwd hd hparent, AgreesWhen]

end OscKernel.Vfs
