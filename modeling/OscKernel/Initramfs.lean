import OscKernel.VfsMount

/-!
# Filling the initramfs

`initramfs_init` makes a file below the root for every entry of the archive. Each round adds a vnode
with a node, and a block with the data of the entry unless the entry is empty.
-/

namespace OscKernel.Vfs

open Mm (maxAllocSize)

variable {st st₁ st' : State} {T : Set ℕ} {v n data root : ℕ} {e : Entry} {entries : List Entry}

def entryBlocks (e : Entry) (n data : ℕ) : List (ℕ × ℕ) :=
  if data = 0 then [(n, sizeofNode)] else [(data, e.data.length), (n, sizeofNode)]

def entryNode (e : Entry) (data : ℕ) : Node :=
  { newNode e.name .file 0 with data := data, size := e.data.length, capacity := e.data.length }

/-- `st'` is `st` with a file for the entry `e` below `root`. -/
structure Added (st st' : State) (root v : ℕ) (e : Entry) : Prop where
  vnode : v ≠ 0
  small : e.data.length ≤ maxAllocSize
  made : ∃ st₁ n data, n ≠ 0 ∧ (data = 0 → e.data = []) ∧
    Extends { st with mem := ByteMem.write st.mem data e.data } st₁
      ((v, sizeofVnode) :: entryBlocks e n data) ∧
    st₁.vnodes v = ⟨0, some .initramfs, some .initramfs, n, root, false⟩ ∧
    st₁.nodes n = entryNode e data ∧ st' = st₁.setNode (st.vnodes root).internal (·.append v)

theorem State.alloc_small {n : ℕ} (hn : n < 2 ^ 32) (h : (st.alloc n).2 ≠ 0) : n ≤ maxAllocSize := by
  rcases st.heap.alloc_cases n with ⟨hp, heq, -⟩ | ⟨hp, p, heq, -, -, hmax, -⟩
  · exact absurd (congrArg Prod.snd heq) h
  · rwa [Nat.mod_eq_of_lt hn] at hmax

theorem initramfsAddEntry_added (h : Tree st T) (hroot : root ∈ T) (hlen : e.data.length < 2 ^ 32)
    (heq : initramfsAddEntry st root e = some st') : ∃ v, Added st st' root v e := by
  rw [initramfsAddEntry] at heq
  rcases State.alloc_cases h.heap (n := sizeofNode) (by decide) with
    ⟨st₁, heq₁, -⟩ | ⟨st₁, n, heq₁, hn, hnfresh, hext₁, -⟩
  · simp only [heq₁, if_true] at heq
    cases heq
  simp only [heq₁, if_neg hn] at heq
  obtain ⟨st₂, data, heq₂, hext₂⟩ : ∃ st₂ data, st₁.alloc e.data.length = (st₂, data) ∧
      Extends st st₂ (entryBlocks e n data) := by
    rcases State.alloc_cases hext₁.ok hlen with
      ⟨st₂, heq₂, hext₂⟩ | ⟨st₂, data, heq₂, hdata, -, hext₂, -⟩
    · refine ⟨st₂, 0, heq₂, ?_⟩
      rw [entryBlocks, if_pos rfl]
      exact hext₁.trans hext₂
    · refine ⟨st₂, data, heq₂, ?_⟩
      rw [entryBlocks, if_neg hdata]
      exact hext₁.trans hext₂
  simp only [heq₂] at heq
  by_cases hnone : data = 0 ∧ e.data ≠ []
  · rw [if_pos hnone] at heq
    cases heq
  rw [if_neg hnone] at heq
  have hext₃ := (hext₂.setMem (ByteMem.write st.mem data e.data)).setNode
    (p := n) hnfresh fun _ => entryNode e data
  rw [hext₂.mem] at heq
  rcases State.alloc_cases hext₃.ok (n := sizeofVnode) (by decide) with
    ⟨st₄, heq₄, -⟩ | ⟨st₄, v, heq₄, hv, hvfresh, hext₄, hv₄, hn₄, -⟩
  · simp only [entryNode] at heq₄
    simp only [heq₄, if_true] at heq
    cases heq
  have hvfresh' : Extends.Fresh st v := fun b hb => hvfresh b (hext₃.mem_live hb)
  have hext₅ := (hext₃.trans hext₄).setVnode (p := v) hvfresh' fun _ =>
    { mount := 0, vOps := some .initramfs, fOps := some .initramfs, internal := n, parent := root,
      parentIsMount := false }
  simp only [entryNode] at heq₄
  simp only [heq₄, if_neg hv] at heq
  have hst := Option.some.inj heq
  have hvroot := hext₅.vnode _ (h.vnode root hroot)
  refine ⟨v, hv, ?_, _, n, data, hn, fun h0 => ?_, hext₅, State.vnodes_setVnode_self .., ?_, ?_⟩
  · by_cases hempty : e.data = []
    · rw [hempty]
      exact Nat.zero_le _
    · refine State.alloc_small hlen (?_ : (st₁.alloc _).2 ≠ 0)
      rw [heq₂]
      exact fun h0 => hnone ⟨h0, hempty⟩
  · by_contra hne
    exact hnone ⟨h0, hne⟩
  · change st₄.nodes n = _
    rw [hn₄]
    exact Function.update_self ..
  · rw [← hst, ← congrArg Vnode.internal hvroot]
    rfl

theorem Added.grows (h : Tree st T) (hroot : root ∈ T) (ha : Added st st' root v e) :
    Grows st st' T (Insert.insert v T) := by
  obtain ⟨hv, -, st₁, n, data, hn, hdata, hext, hvnode, hnode, rfl⟩ := ha
  have hg := Grows.extend (h.setMem _) hext
  have hlive : ∀ b ∈ (v, sizeofVnode) :: entryBlocks e n data, b ∈ st₁.heap.live := by
    intro b hb
    rw [hext.live]
    exact List.mem_append_left _ hb
  have hnblock : (n, sizeofNode) ∈ entryBlocks e n data := by
    rw [entryBlocks]
    split_ifs <;> simp
  have hint : st₁.internal v = entryNode e data := by
    rw [State.internal, hvnode]
    exact hnode
  have hins : Tree st₁ (Insert.insert v T) := by
    refine hg.tree.insert (hlive _ (List.mem_cons_self ..)) ?_ ?_ ?_ ?_ ?_ ?_ ?_ ?_
    · rw [hvnode]
      exact hlive _ (List.mem_cons_of_mem _ hnblock)
    · intro w hw
      rw [hvnode, hext.vnode _ (h.vnode w hw)]
      exact hext.fresh (List.mem_cons_of_mem _ hnblock) _ (h.node w hw)
    · rw [hvnode]
      exact Option.some_ne_none _
    · rw [hvnode]
      exact ⟨Option.some_ne_none _, fun h => by cases h⟩
    · rw [hvnode]
      exact hroot
    · rw [hint]
      rfl
    · rw [hvnode]
      exact fun hne => absurd rfl hne
    · rintro ⟨hvops, -⟩
      rw [hvnode] at hvops
      cases hvops
  have hvroot : st₁.vnodes root = st.vnodes root := hext.vnode _ (h.vnode root hroot)
  have hmem : MountsKept st { st with mem := ByteMem.write st.mem data e.data } T T :=
    MountsKept.same h rfl rfl (fun _ => SameShape.refl _) rfl rfl rfl
  refine ⟨?_, Set.subset_insert v T, hg.root, hg.vOps, hg.handle, hmem.trans ?_ Set.Subset.rfl⟩
  · rw [← hvroot]
    exact hins.append (Or.inr hroot) (Or.inl rfl)
  · refine MountsKept.attach (h.setMem _) hext hroot (List.mem_cons_self ..)
      (List.mem_cons_of_mem _ hnblock) ?_ ?_ ?_ (Or.inl ?_) ?_
    · rw [hvnode]
    · rw [hvnode]
    · rw [hvnode]
    · rw [hvnode]
    · rw [hnode]
      rfl

/-- A vnode becomes a directory. -/
theorem Tree.setDirectory (h : Tree st T) (n : ℕ) :
    Tree (st.setNode n fun r => { r with type := .directory }) T := by
  have hint : ∀ w, (st.setNode n fun r => { r with type := .directory }).internal w =
      if (st.vnodes w).internal = n then { st.internal w with type := .directory }
      else st.internal w := by
    intro w
    change Function.update st.nodes n _ (st.vnodes w).internal = _
    split_ifs with heq
    · rw [← heq, Function.update_self]
      rfl
    · exact Function.update_of_ne heq _ _
  have hfile : ∀ w, IsDataFile (st.setNode n fun r => { r with type := .directory }) w →
      (st.vnodes w).internal ≠ n ∧ IsDataFile st w := by
    rintro w ⟨hops, htype⟩
    rw [hint] at htype
    split_ifs at htype with heq
    exact ⟨heq, hops, htype⟩
  refine ⟨h.heap, h.rootfs, h.root, h.rootMount, h.vnode, h.node, h.node_inj, h.vOps, h.fOps,
    h.parent, ?_, h.mount, ?_, ?_, h.fs⟩
  · intro w hw i hi
    rw [hint] at hi ⊢
    split_ifs at hi ⊢ <;> exact h.child w hw i hi
  · intro w hw hf
    obtain ⟨hne, hf⟩ := hfile w hf
    rw [hint, if_neg hne]
    exact h.data w hw hf
  · intro w hw u hu hfw hfu heq
    obtain ⟨hnw, hfw⟩ := hfile w hfw
    obtain ⟨hnu, hfu⟩ := hfile u hfu
    rw [hint, hint, if_neg hnw, if_neg hnu] at heq
    exact h.data_inj w hw u hu hfw hfu heq

/-- The rounds of the loop. -/
theorem addEntries_grows (h : Tree st T) (hroot : root ∈ T) (hlen : ∀ e ∈ entries, e.data.length < 2 ^ 32)
    (heq : entries.foldlM (fun st e => initramfsAddEntry st root e) st = some st') :
    ∃ T', Grows st st' T T' := by
  induction entries generalizing st T with
  | nil =>
      obtain rfl := Option.some.inj heq
      exact ⟨T, h, Set.Subset.rfl, rfl, fun _ _ => rfl, fun _ hp => ⟨hp, rfl, rfl⟩,
        MountsKept.refl st T⟩
  | cons e entries ih =>
      rw [List.foldlM_cons] at heq
      obtain ⟨st₁, hadd, heq⟩ := Option.bind_eq_some_iff.1 heq
      obtain ⟨v, ha⟩ := initramfsAddEntry_added h hroot (hlen e (List.mem_cons_self ..)) hadd
      have hg := ha.grows h hroot
      obtain ⟨T', hg'⟩ := ih hg.tree (hg.subset hroot)
        (fun e he => hlen e (List.mem_cons_of_mem _ he)) heq
      exact ⟨T', hg.trans hg'⟩

theorem setDirectory_grows (h : Tree st T) (v : ℕ) :
    Grows st (st.setNode (st.vnodes v).internal fun e => { e with type := .directory }) T T := by
  have hfields : ∀ w, ((st.setNode (st.vnodes v).internal fun e => { e with type := .directory }).internal
      w).children = (st.internal w).children ∧
      ((st.setNode (st.vnodes v).internal fun e => { e with type := .directory }).internal
        w).numChildren = (st.internal w).numChildren ∧
      ((st.internal w).type = .directory →
        ((st.setNode (st.vnodes v).internal fun e => { e with type := .directory }).internal w).type =
          .directory) := by
    intro w
    by_cases hsame : (st.vnodes w).internal = (st.vnodes v).internal
    · have hself : (st.setNode (st.vnodes v).internal fun e => { e with type := .directory }).internal w =
          { st.internal w with type := .directory } := by
        rw [State.internal, State.internal, hsame]
        exact (congrArg _ hsame).trans (Function.update_self ..)
      rw [hself]
      exact ⟨rfl, rfl, fun _ => rfl⟩
    · rw [State.internal_setNode_of_ne _ _ hsame]
      exact ⟨rfl, rfl, id⟩
  refine ⟨h.setDirectory _, Set.Subset.rfl, rfl, fun _ _ => rfl, fun _ hp => ⟨hp, rfl, rfl⟩,
    fun _ _ => ⟨rfl, rfl⟩, fun _ _ _ => ⟨rfl, rfl⟩, fun w _ => (hfields w).2.2,
    ⟨List.prefix_rfl, fun _ _ => rfl⟩, fun hr => ?_⟩
  exact hr.congr h (fun _ _ => ⟨rfl, rfl, rfl⟩) (fun _ _ _ => rfl)
    (fun w _ => ⟨(hfields w).1, (hfields w).2.1⟩) rfl

theorem initramfsInit_grows (h : Tree st T) (hroot : root ∈ T)
    (hlen : ∀ e ∈ entries, e.data.length < 2 ^ 32) (heq : initramfsInit st root entries = some st') :
    ∃ T', Grows st st' T T' := by
  rw [initramfsInit, if_neg (h.ne_zero hroot)] at heq
  have hdir := setDirectory_grows h root
  obtain ⟨T', hg⟩ := addEntries_grows hdir.tree hroot hlen heq
  exact ⟨T', hdir.trans hg⟩

end OscKernel.Vfs
