import OscKernel.Arborescence
import OscKernel.Runs
import OscKernel.VfsSystem

/-!
# The directories of a tmpfs

From a fresh mount on, files and directories are made in any directory, under any name and with any
outcome of the allocations. A creation goes wrong without any effect or adds one leaf to the tree of
vnodes, which its directory then finds under its name.
-/

namespace OscKernel.Vfs

open Relation Runs

variable {st st' st₀ : State} {T T' : Set ℕ} {root dir v w : ℕ} {name : List UInt8} {type : NodeType}

def ChildOf (st : State) (w v : ℕ) : Prop :=
  ∃ i < (st.internal w).numChildren, (st.internal w).children i = v

structure Directories (st : State) (root : ℕ) (T : Set ℕ) : Prop where
  tree : Arborescence (ChildOf st) root T
  room : ∀ w ∈ T, (st.internal w).numChildren ≤ maxChildren
  parent : ∀ w ∈ T, ∀ v, ChildOf st w v → (st.vnodes v).parent = w
  named : ∀ w ∈ T, ∀ v, ChildOf st w v →
    (st.internal v).name ≠ [] ∧ (st.internal v).name.length < maxFileName
  distinct : ∀ w ∈ T, ∀ i < (st.internal w).numChildren, ∀ j < (st.internal w).numChildren,
    (st.internal ((st.internal w).children i)).name = (st.internal ((st.internal w).children j)).name →
      i = j
  heap : st.heap.Ok
  own : OwnNodes st T

def FreshMount (st : State) (root : ℕ) : Prop :=
  ∃ st₀ fs m, st₀.heap.Ok ∧ tmpfsSetupMount st₀ fs m = (st, 0) ∧ (st.mounts m).root = root

/-- A call of `tmpfs_create` or `tmpfs_mkdir` on a vnode of the mount; `T` are the vnodes made so far. -/
inductive Creation : State × Set ℕ → State × Set ℕ → Prop
  | call {st : State} {T : Set ℕ} {dir : ℕ} (hd : dir ∈ T) (target : ℕ) (name : List UInt8)
      (type : NodeType) :
      Creation (st, T) ((tmpfsCreateOrMkdir st dir target name type).1,
        if (tmpfsCreateOrMkdir st dir target name type).2.1 = 0 then
          insert (tmpfsCreateOrMkdir st dir target name type).2.2 T
        else T)

theorem childOf_append (h : Appended st st' T dir v name) {u : ℕ} :
    ChildOf st' dir u ↔ ChildOf st dir u ∨ u = v := by
  simp only [ChildOf, h.self, Node.append]
  constructor
  · rintro ⟨i, hi, rfl⟩
    by_cases hlast : i = (st.internal dir).numChildren
    · rw [hlast, Function.update_self]
      exact Or.inr rfl
    · rw [Function.update_of_ne hlast]
      exact Or.inl ⟨i, by omega, rfl⟩
  · rintro (⟨i, hi, rfl⟩ | rfl)
    · exact ⟨i, by omega, Function.update_of_ne (by omega) _ _⟩
    · exact ⟨(st.internal dir).numChildren, by omega, Function.update_self ..⟩

theorem childOf_other (h : Appended st st' T dir v name) (hw : w ∈ T) (hne : w ≠ dir) {u : ℕ} :
    ChildOf st' w u ↔ ChildOf st w u := by
  rw [ChildOf, ChildOf, h.other w hw hne]

/-- The children of a directory of `T` after a creation. -/
theorem childOf_iff (h : Appended st st' T dir v name) (hd : dir ∈ T) (hw : w ∈ T) {u : ℕ} :
    ChildOf st' w u ↔ ChildOf st w u ∨ w = dir ∧ u = v := by
  by_cases hne : w = dir
  · subst hne
    simpa using childOf_append h
  · simpa [hne] using childOf_other h hw hne

structure NewChild (st' : State) (dir v : ℕ) (name : List UInt8) (type : NodeType) : Prop where
  parent : (st'.vnodes v).parent = dir
  name : (st'.internal v).name = name
  type : (st'.internal v).type = type
  empty : (st'.internal v).numChildren = 0

theorem Created.newChild (hc : Created st st' dir v name type) (h : OwnNodes st T) (hd : dir ∈ T) :
    NewChild st' dir v name type := by
  obtain ⟨-, st₁, n, data, -, rfl, hext, hvnode, hnode⟩ := hc
  have hnblock : (n, sizeofNode) ∈ (v, sizeofVnode) :: nodeBlocks type n data := by
    rw [nodeBlocks]
    split_ifs <;> simp
  have hint : (st₁.setNode (st.vnodes dir).internal (·.append v)).internal v =
      createdNode name type (st.vnodes dir).internal data := by
    rw [State.internal_setNode_of_ne, State.internal, hvnode]
    · exact hnode
    · rw [hvnode]
      exact fun heq => hext.fresh hnblock _ (h.node dir hd) heq.symm
  refine ⟨?_, ?_, ?_, ?_⟩
  · change (st₁.vnodes v).parent = dir
    rw [hvnode]
  all_goals
    rw [hint, createdNode]
    split_ifs <;> rfl

/-- The heap after a creation: the vnode and its node are new blocks. -/
theorem Created.ownNodes (hc : Created st st' dir v name type) (h : OwnNodes st T) :
    st'.heap.Ok ∧ OwnNodes st' (insert v T) := by
  obtain ⟨-, st₁, n, data, -, rfl, hext, hvnode, hnode⟩ := hc
  have hnew : ∀ b ∈ (v, sizeofVnode) :: nodeBlocks type n data, b ∈ st₁.heap.live := by
    intro b hb
    rw [hext.live]
    exact List.mem_append_left _ hb
  have hnblock : (n, sizeofNode) ∈ (v, sizeofVnode) :: nodeBlocks type n data := by
    rw [nodeBlocks]
    split_ifs <;> simp
  have hold : ∀ w ∈ T, st₁.vnodes w = st.vnodes w := fun w hw => hext.vnode _ (h.vnode w hw)
  have hne : ∀ w ∈ T, (st₁.vnodes w).internal ≠ (st₁.vnodes v).internal := by
    intro w hw
    rw [hvnode, hold w hw]
    exact hext.fresh hnblock _ (h.node w hw)
  refine ⟨hext.ok, ?_, ?_, ?_⟩
  · rintro w (rfl | hw)
    · exact hnew _ (List.mem_cons_self ..)
    · exact hext.mem_live (h.vnode w hw)
  · rintro w (rfl | hw)
    · change ((st₁.vnodes w).internal, _) ∈ st₁.heap.live
      rw [hvnode]
      exact hnew _ hnblock
    · change ((st₁.vnodes w).internal, _) ∈ st₁.heap.live
      rw [hold w hw]
      exact hext.mem_live (h.node w hw)
  · rintro w (rfl | hw) u (rfl | hu) heq
    · rfl
    · exact absurd heq.symm (hne u hu)
    · exact absurd heq (hne w hw)
    · have heq' : (st₁.vnodes w).internal = (st₁.vnodes u).internal := heq
      rw [hold w hw, hold u hu] at heq'
      exact h.inj w hw u hu heq'

/-- No child of the directory has the name that it does not find. -/
theorem name_ne_of_absent (habsent : findChild st (st.internal dir) name = none) {i : ℕ}
    (hi : i < (st.internal dir).numChildren) :
    (st.internal ((st.internal dir).children i)).name ≠ name := by
  have hall := List.find?_eq_none.1 habsent
  have hmem := List.mem_map_of_mem (f := (st.internal dir).children) (List.mem_range.2 hi)
  simpa using hall _ hmem

/-- A creation that succeeds keeps the directories. -/
theorem Directories.created (h : Directories st root T) (hd : dir ∈ T) (hcan : CanCreate st dir name)
    (hc : Created st st' dir v name type) : Directories st' root (insert v T) := by
  have ha := hc.appended h.own hd
  have hnew := hc.newChild h.own hd
  obtain ⟨hheap, hown⟩ := hc.ownNodes h.own
  have hmem : ∀ w ∈ T, ∀ u, ChildOf st w u → u ∈ T := h.tree.closed
  have hleaf : ∀ u, ¬ ChildOf st' v u := by
    rintro u ⟨i, hi, -⟩
    rw [hnew.empty] at hi
    exact Nat.not_lt_zero i hi
  refine ⟨h.tree.grow hd ha.fresh (fun w hw u => childOf_iff ha hd hw) hleaf, ?_, ?_, ?_, ?_, hheap, hown⟩
  · rintro w (rfl | hw)
    · rw [hnew.empty]
      exact Nat.zero_le _
    · by_cases hne : w = dir
      · rw [hne, ha.self]
        exact hcan.room
      · rw [ha.other w hw hne]
        exact h.room w hw
  · rintro w (rfl | hw) u hu
    · exact absurd hu (hleaf u)
    · rcases (childOf_iff ha hd hw).1 hu with hu | ⟨rfl, rfl⟩
      · rw [ha.vnode u (hmem w hw u hu)]
        exact h.parent w hw u hu
      · exact hnew.parent
  · rintro w (rfl | hw) u hu
    · exact absurd hu (hleaf u)
    · rcases (childOf_iff ha hd hw).1 hu with hu | ⟨rfl, rfl⟩
      · rw [ha.childName (hmem w hw u hu)]
        exact h.named w hw u hu
      · rw [hnew.name]
        exact ⟨hcan.named, hcan.short⟩
  · rintro w (rfl | hw)
    · intro i hi
      rw [hnew.empty] at hi
      exact absurd hi (Nat.not_lt_zero i)
    · have hname : ∀ i < (st.internal w).numChildren,
          (st'.internal ((st.internal w).children i)).name =
            (st.internal ((st.internal w).children i)).name :=
        fun i hi => ha.childName (hmem w hw _ ⟨i, hi, rfl⟩)
      by_cases hne : w = dir
      · subst hne
        have hself : ∀ i < (st.internal w).numChildren + 1,
            (st'.internal (((st.internal w).append v).children i)).name =
              if i < (st.internal w).numChildren then (st.internal ((st.internal w).children i)).name
              else name := by
          intro i hi
          by_cases hlt : i < (st.internal w).numChildren
          · rw [if_pos hlt, ← hname i hlt]
            exact congrArg (fun c => (st'.internal c).name) (Function.update_of_ne hlt.ne _ _)
          · have hlast : i = (st.internal w).numChildren := by omega
            rw [if_neg hlt, ← hnew.name, hlast]
            exact congrArg (fun c => (st'.internal c).name) (Function.update_self ..)
        rw [ha.self]
        intro i hi j hj heq
        change i < (st.internal w).numChildren + 1 at hi
        change j < (st.internal w).numChildren + 1 at hj
        rw [hself i hi, hself j hj] at heq
        split_ifs at heq with hilt hjlt hjlt
        · exact h.distinct w hw i hilt j hjlt heq
        · exact absurd heq (name_ne_of_absent hcan.absent hilt)
        · exact absurd heq.symm (name_ne_of_absent hcan.absent hjlt)
        · omega
      · rw [ha.other w hw hne]
        intro i hi j hj heq
        rw [hname i hi, hname j hj] at heq
        exact h.distinct w hw i hi j hj heq

/-- Added blocks alone touch no directory. -/
theorem Directories.extend (h : Directories st root T) (he : Extends st st' []) :
    Directories st' root T := by
  have hv : ∀ w ∈ T, st'.vnodes w = st.vnodes w := fun w hw => he.vnode _ (h.own.vnode w hw)
  have hi : ∀ w ∈ T, st'.internal w = st.internal w := fun w hw => h.own.internal he hw
  have hchild : ∀ w ∈ T, ∀ u, ChildOf st' w u ↔ ChildOf st w u := fun w hw u => by
    rw [ChildOf, ChildOf, hi w hw]
  have hmem : ∀ w ∈ T, ∀ u, ChildOf st' w u → u ∈ T := fun w hw u hu =>
    h.tree.closed w hw u ((hchild w hw u).1 hu)
  refine ⟨h.tree.congr hchild, ?_, ?_, ?_, ?_, he.ok, ?_, ?_, ?_⟩
  · intro w hw
    rw [hi w hw]
    exact h.room w hw
  · intro w hw u hu
    rw [hv u (hmem w hw u hu)]
    exact h.parent w hw u ((hchild w hw u).1 hu)
  · intro w hw u hu
    rw [hi u (hmem w hw u hu)]
    exact h.named w hw u ((hchild w hw u).1 hu)
  · intro w hw i hlt j hlt' heq
    rw [hi w hw] at hlt hlt' heq
    rw [hi _ (h.tree.closed w hw _ ⟨i, hlt, rfl⟩), hi _ (h.tree.closed w hw _ ⟨j, hlt', rfl⟩)] at heq
    exact h.distinct w hw i hlt j hlt' heq
  · exact fun w hw => he.mem_live (h.own.vnode w hw)
  · intro w hw
    rw [hv w hw]
    exact he.mem_live (h.own.node w hw)
  · intro w hw u hu heq
    rw [hv w hw, hv u hu] at heq
    exact h.own.inj w hw u hu heq

/-- A new mount has an empty root. -/
theorem FreshMount.directories (h : FreshMount st root) : Directories st root {root} := by
  obtain ⟨st₀, fs, m, hok, hset, hroot⟩ := h
  by_cases hnull : fs = 0 ∨ m = 0
  · rw [tmpfsSetupMount, if_pos hnull] at hset
    exact absurd (congrArg Prod.snd hset) (show einval ≠ 0 by decide)
  push Not at hnull
  -- the mount may itself be a block in use, so the base has none
  have he : Extends { st₀ with heap := { st₀.heap with live := [] } } st₀ st₀.heap.live :=
    ⟨hok, by simp, by simp, by simp, by simp, by simp, by simp, rfl, rfl, rfl⟩
  have hfresh : Extends.Fresh { st₀ with heap := { st₀.heap with live := [] } } m := by
    simp [Extends.Fresh]
  rcases tmpfsSetupMount_cases he hfresh hnull.1 hnull.2 with ⟨st', heq, -⟩ | ⟨st', r, n, heq, hup⟩
  · rw [hset] at heq
    exact absurd (congrArg Prod.snd heq).symm (show enomem ≠ 0 by decide)
  rw [hset] at heq
  have hst : st = st' := congrArg Prod.fst heq
  subst hst
  have hr : r = root := by rw [← hroot, hup.mount]
  subst hr
  have hint : (st.internal r).numChildren = 0 := by
    rw [State.internal, hup.vnode.2.2.2.1]
    exact hup.empty
  have hleaf : ∀ u, ¬ ChildOf st r u := by
    rintro u ⟨i, hi, -⟩
    rw [hint] at hi
    exact Nat.not_lt_zero i hi
  refine ⟨Arborescence.single hleaf, ?_, ?_, ?_, ?_, hup.extend.ok, ?_, ?_, ?_⟩
  · rintro w rfl
    rw [hint]
    exact Nat.zero_le _
  · rintro w rfl u hu
    exact absurd hu (hleaf u)
  · rintro w rfl u hu
    exact absurd hu (hleaf u)
  · rintro w rfl i hi
    rw [hint] at hi
    exact absurd hi (Nat.not_lt_zero i)
  · rintro w rfl
    rw [hup.extend.live]
    exact List.mem_cons_self
  · rintro w rfl
    rw [hup.extend.live, hup.vnode.2.2.2.1]
    exact List.mem_cons_of_mem _ List.mem_cons_self
  · rintro w rfl u rfl -
    rfl

/-- The outcomes of a call in a mount. -/
theorem Directories.call (h : Directories st root T) (target : ℕ) (name : List UInt8)
    (type : NodeType) :
    (∃ st' r t, tmpfsCreateOrMkdir st dir target name type = (st', r, t) ∧ r ≠ 0 ∧
      Extends st st' []) ∨
      ∃ st' v, tmpfsCreateOrMkdir st dir target name type = (st', 0, v) ∧ CanCreate st dir name ∧
        Created st st' dir v name type := by
  by_cases hcan : CanCreate st dir name
  · rcases tmpfsCreateOrMkdir_cases h.heap hcan target type with ⟨st', heq, he⟩ | ⟨st', v, heq, hc⟩
    · exact Or.inl ⟨st', enomem, 0, heq, by decide, he⟩
    · exact Or.inr ⟨st', v, heq, hcan, hc⟩
  · obtain ⟨r, t, heq, hneg, -⟩ := tmpfsCreateOrMkdir_refused hcan target type
    exact Or.inl ⟨st, r, t, heq, hneg.ne, Extends.refl h.heap⟩

theorem creation_stable (root : ℕ) : Stable Creation fun s => Directories s.1 root s.2 := by
  rintro _ _ h ⟨hd, target, name, type⟩
  rcases h.call target name type with ⟨st', r, t, heq, hne, he⟩ | ⟨st', v, heq, hcan, hc⟩
  · rw [heq, if_neg hne]
    exact h.extend he
  · rw [heq, if_pos rfl]
    exact h.created hd hcan hc

/-- The creation has added `v` to the directory, where only its own name leads to it. -/
structure AppendsChild (st st' : State) (T : Set ℕ) (dir v : ℕ) (name : List UInt8) (type : NodeType) :
    Prop where
  appended : Appended st st' T dir v name
  child : NewChild st' dir v name type
  lookup : ∀ target name', tmpfsLookup st' dir target name' = (0, v) ↔ name' = name

structure NothingDone (st st' : State) (T : Set ℕ) : Prop where
  live : st'.heap.live = st.heap.live
  vnode : ∀ w ∈ T, st'.vnodes w = st.vnodes w
  internal : ∀ w ∈ T, st'.internal w = st.internal w

theorem Directories.lookup_created (h : Directories st root T) (hd : dir ∈ T)
    (hcan : CanCreate st dir name) (hc : Created st st' dir v name type) (target : ℕ)
    (name' : List UInt8) : tmpfsLookup st' dir target name' = (0, v) ↔ name' = name := by
  have ha := hc.appended h.own hd
  have hfind := ha.findChild_dir name' fun i hi => h.tree.closed dir hd _ ⟨i, hi, rfl⟩
  have hnull : ¬ (dir = 0 ∨ (st'.vnodes dir).internal = 0) := by
    rw [ha.vnode dir hd]
    exact not_or.2 ⟨hcan.vnode, hcan.node⟩
  have htype : ¬ (st'.internal dir).type ≠ .directory := by
    rw [ha.self, not_not]
    exact hcan.directory
  rw [tmpfsLookup, if_neg hnull, if_neg htype, hfind]
  constructor
  · intro heq
    by_contra hne
    rw [if_neg fun h => hne h.symm, Option.or_none] at heq
    cases hold : findChild st (st.internal dir) name' with
    | none =>
        rw [hold] at heq
        exact absurd (congrArg Prod.fst heq) (show enoent ≠ 0 by decide)
    | some c =>
        rw [hold] at heq
        obtain ⟨i, hi, rfl⟩ := List.mem_map.1 (List.mem_of_find?_eq_some hold)
        have hmem := h.tree.closed dir hd _ ⟨i, List.mem_range.1 hi, rfl⟩
        have hv : (st.internal dir).children i = v := congrArg Prod.snd heq
        exact ha.fresh (hv ▸ hmem)
  · rintro rfl
    rw [hcan.absent, if_pos rfl]
    rfl

/-- The directories of a tmpfs form a tree of bounded directories with distinct names, and a creation in
it does all of its work or none. -/
theorem tmpfs_creation_all_or_nothing (hfresh : FreshMount st₀ root)
    (hrun : ReflTransGen Creation (st₀, {root}) (st, T)) :
    Directories st root T ∧ (∀ v ∈ T, ¬ TransGen (ChildOf st) v v) ∧
      ∀ dir ∈ T, ∀ target name type st' r v, tmpfsCreateOrMkdir st dir target name type = (st', r, v) →
        (r = 0 → AppendsChild st st' T dir v name type) ∧ (r ≠ 0 → NothingDone st st' T) := by
  have h : Directories st root T := (creation_stable root).run hfresh.directories hrun
  refine ⟨h, fun v hv => h.tree.acyclic hv, fun dir hd target name type st' r v hcall => ?_⟩
  rcases h.call target name type with ⟨st₁, r₁, t, heq, hne, he⟩ | ⟨st₁, v₁, heq, hcan, hc⟩
  · obtain ⟨rfl, rfl, rfl⟩ : st' = st₁ ∧ r = r₁ ∧ v = t := by simpa using hcall.symm.trans heq
    refine ⟨fun h0 => absurd h0 hne, fun _ => ⟨?_, ?_, ?_⟩⟩
    · rw [he.live, List.nil_append]
    · exact fun w hw => he.vnode _ (h.own.vnode w hw)
    · exact fun w hw => h.own.internal he hw
  · obtain ⟨rfl, rfl, rfl⟩ : st' = st₁ ∧ r = 0 ∧ v = v₁ := by simpa using hcall.symm.trans heq
    refine ⟨fun _ => ⟨hc.appended h.own hd, hc.newChild h.own hd, ?_⟩, fun hne => absurd rfl hne⟩
    exact h.lookup_created hd hcan hc

theorem Creation.succeeds (hd : dir ∈ T) {target : ℕ}
    (h0 : (tmpfsCreateOrMkdir st dir target name type).2.1 = 0) :
    Creation (st, T) ((tmpfsCreateOrMkdir st dir target name type).1,
      insert (tmpfsCreateOrMkdir st dir target name type).2.2 T) := by
  have hcall := @Creation.call st T dir hd target name type
  rwa [if_pos h0] at hcall

/-- A mount in which the directory `a` has been made. -/
theorem tmpfs_creation_all_or_nothing_sample :
    let st₀ := (tmpfsSetupMount State.blank 1 1).1
    let root := (st₀.mounts 1).root
    let made := tmpfsCreateOrMkdir st₀ root 0 [97] .directory
    (made.1.internal root).numChildren = 1 ∧
      Directories made.1 root {made.2.2, root} ∧
      (∀ v ∈ ({made.2.2, root} : Set ℕ), ¬ TransGen (ChildOf made.1) v v) ∧
      ∀ dir ∈ ({made.2.2, root} : Set ℕ), ∀ target name type st' r v,
        tmpfsCreateOrMkdir made.1 dir target name type = (st', r, v) →
          (r = 0 → AppendsChild made.1 st' {made.2.2, root} dir v name type) ∧
          (r ≠ 0 → NothingDone made.1 st' {made.2.2, root}) := by
  intro st₀ root made
  have hfresh : FreshMount st₀ root :=
    ⟨State.blank, 1, 1, ⟨List.Pairwise.nil, by simp [State.blank], by simp [State.blank]⟩,
      Prod.ext rfl (by decide), rfl⟩
  have hcode : made.2.1 = 0 := by decide
  have hcount : (made.1.internal root).numChildren = 1 := by decide
  clear_value root st₀
  have hstep : Creation (st₀, {root}) (made.1, {made.2.2, root}) :=
    Creation.succeeds (Set.mem_singleton root) hcode
  exact ⟨hcount, tmpfs_creation_all_or_nothing hfresh (ReflTransGen.single hstep)⟩

end OscKernel.Vfs
