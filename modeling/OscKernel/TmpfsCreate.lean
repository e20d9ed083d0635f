import OscKernel.ClientHeap
import OscKernel.Tmpfs

/-!
# Creating nodes

A call that allocates and fails leaves every block in use as it was, and a call that succeeds adds
blocks. `Extends st st' bs` says that `st'` has the blocks `bs` besides those of `st`, whose structures
it does not change.
-/

namespace OscKernel.Vfs

open Mm (maxAllocSize)

structure Extends (st st' : State) (bs : List (ℕ × ℕ)) : Prop where
  ok : st'.heap.Ok
  live : st'.heap.live = bs ++ st.heap.live
  vnode : ∀ b ∈ st.heap.live, st'.vnodes b.1 = st.vnodes b.1
  node : ∀ b ∈ st.heap.live, st'.nodes b.1 = st.nodes b.1
  mount : ∀ b ∈ st.heap.live, st'.mounts b.1 = st.mounts b.1
  file : ∀ b ∈ st.heap.live, st'.files b.1 = st.files b.1
  fs : ∀ b ∈ st.heap.live, st'.fsTable b.1 = st.fsTable b.1
  mem : st'.mem = st.mem
  filesystems : st'.filesystems = st.filesystems
  rootfs : st'.rootfs = st.rootfs

variable {st st₁ st₂ st' : State} {bs cs : List (ℕ × ℕ)} {n p : ℕ} {b : ℕ × ℕ}

namespace Extends

theorem refl (hok : st.heap.Ok) : Extends st st [] :=
  ⟨hok, rfl, fun _ _ => rfl, fun _ _ => rfl, fun _ _ => rfl, fun _ _ => rfl, fun _ _ => rfl, rfl, rfl,
    rfl⟩

theorem mem_live (h : Extends st st' bs) (hb : b ∈ st.heap.live) : b ∈ st'.heap.live := by
  rw [h.live]
  exact List.mem_append_right _ hb

theorem trans (h₁ : Extends st st₁ bs) (h₂ : Extends st₁ st₂ cs) : Extends st st₂ (cs ++ bs) where
  ok := h₂.ok
  live := by rw [h₂.live, h₁.live, List.append_assoc]
  vnode b hb := (h₂.vnode b (h₁.mem_live hb)).trans (h₁.vnode b hb)
  node b hb := (h₂.node b (h₁.mem_live hb)).trans (h₁.node b hb)
  mount b hb := (h₂.mount b (h₁.mem_live hb)).trans (h₁.mount b hb)
  file b hb := (h₂.file b (h₁.mem_live hb)).trans (h₁.file b hb)
  fs b hb := (h₂.fs b (h₁.mem_live hb)).trans (h₁.fs b hb)
  mem := h₂.mem.trans h₁.mem
  filesystems := h₂.filesystems.trans h₁.filesystems
  rootfs := h₂.rootfs.trans h₁.rootfs

def Fresh (st : State) (p : ℕ) : Prop := ∀ b ∈ st.heap.live, b.1 ≠ p

theorem setVnode (h : Extends st st' bs) (hp : Fresh st p) (f : Vnode → Vnode) :
    Extends st (st'.setVnode p f) bs where
  __ := h
  vnode b hb := (Function.update_of_ne (hp b hb) _ _).trans (h.vnode b hb)

theorem setNode (h : Extends st st' bs) (hp : Fresh st p) (f : Node → Node) :
    Extends st (st'.setNode p f) bs where
  __ := h
  node b hb := (Function.update_of_ne (hp b hb) _ _).trans (h.node b hb)

theorem setMount (h : Extends st st' bs) (hp : Fresh st p) (f : Mount → Mount) :
    Extends st (st'.setMount p f) bs where
  __ := h
  mount b hb := (Function.update_of_ne (hp b hb) _ _).trans (h.mount b hb)

theorem setFile (h : Extends st st' bs) (hp : Fresh st p) (f : File → File) :
    Extends st (st'.setFile p f) bs where
  __ := h
  file b hb := (Function.update_of_ne (hp b hb) _ _).trans (h.file b hb)

/-- The same change of a vnode in both states. -/
theorem setVnode_both (h : Extends st st' bs) (hp : (p, n) ∈ st.heap.live) (f : Vnode → Vnode) :
    Extends (st.setVnode p f) (st'.setVnode p f) bs where
  __ := h
  vnode b hb := by
    change Function.update st'.vnodes p _ b.1 = Function.update st.vnodes p _ b.1
    rw [h.vnode _ hp]
    by_cases heq : b.1 = p
    · rw [heq, Function.update_self, Function.update_self]
    · rw [Function.update_of_ne heq, Function.update_of_ne heq, h.vnode b hb]

/-- A block added to a state is fresh in it. -/
theorem fresh (h : Extends st st' bs) (hb : (p, n) ∈ bs) : Fresh st p := by
  intro b hb'
  have hmem : (p, n) ∈ st'.heap.live := by
    rw [h.live]
    exact List.mem_append_left _ hb
  have hapart := h.ok.apart
  rw [h.live] at hapart
  exact h.ok.start_ne (h.ok.size_pos _ hmem) (h.mem_live hb')
    ((List.pairwise_append.1 hapart).2.2 _ hb b hb')

end Extends

/-- The two outcomes of `alloc`. -/
theorem State.alloc_extends (hok : st.heap.Ok) (n : ℕ) :
    (∃ st', st.alloc n = (st', 0) ∧ Extends st st' []) ∨
      ∃ st' p, st.alloc n = (st', p) ∧ p ≠ 0 ∧ Extends.Fresh st p ∧
        Extends st st' [(p, n % 2 ^ 32)] ∧ st'.vnodes = st.vnodes ∧ st'.nodes = st.nodes ∧
        st'.mounts = st.mounts ∧ st'.files = st.files := by
  rcases st.heap.alloc_cases n with ⟨hp, heq, hlive⟩ | ⟨hp, p, heq, hp0, hn0, -, hapart, hlive⟩
  · have hok' : hp.Ok := by simpa only [heq] using hok.alloc n
    refine Or.inl ⟨{ st with heap := hp }, ?_, ?_⟩
    · rw [State.alloc, heq]
    · exact { Extends.refl hok with ok := hok', live := hlive }
  · have hok' : hp.Ok := by simpa only [heq] using hok.alloc n
    refine Or.inr ⟨{ st with heap := hp }, p, ?_, hp0.ne', ?_, ?_, rfl, rfl, rfl, rfl⟩
    · rw [State.alloc, heq]
    · intro b hb
      exact hok.start_ne hn0 hb (hapart b hb)
    · exact { Extends.refl hok with ok := hok', live := hlive }

theorem State.alloc_cases (hok : st.heap.Ok) (hn : n < 2 ^ 32) :
    (∃ st', st.alloc n = (st', 0) ∧ Extends st st' []) ∨
      ∃ st' p, st.alloc n = (st', p) ∧ p ≠ 0 ∧ Extends.Fresh st p ∧ Extends st st' [(p, n)] ∧
        st'.vnodes = st.vnodes ∧ st'.nodes = st.nodes ∧ st'.mounts = st.mounts ∧
        st'.files = st.files := by
  have h := State.alloc_extends hok n
  rwa [Nat.mod_eq_of_lt hn] at h

/-- Freeing an added block leaves the others. -/
theorem Extends.free (h : Extends st st' ((p, n) :: bs)) (hbs : ∀ b ∈ bs, b.1 ≠ p)
    (hp : Fresh st p) : Extends st (st'.free p) bs where
  __ := h
  ok := h.ok.free p
  live := by
    change (st'.heap.live.filter _) = _
    rw [h.live, List.cons_append, List.filter_cons_of_neg (by simp), List.filter_eq_self]
    intro b hb
    rcases List.mem_append.1 hb with hb | hb
    · simpa using hbs b hb
    · simpa using hp b hb

/-- Freeing the block that was added first. -/
theorem Extends.free_last (h : Extends st st' (bs ++ [(p, n)])) (hbs : ∀ b ∈ bs, b.1 ≠ p)
    (hp : Fresh st p) : Extends st (st'.free p) bs where
  __ := h
  ok := h.ok.free p
  live := by
    have hst : (st.heap.live.filter fun b => b.1 ≠ p) = st.heap.live :=
      List.filter_eq_self.2 fun b hb => by simpa using hp b hb
    have hbs' : (bs.filter fun b => b.1 ≠ p) = bs :=
      List.filter_eq_self.2 fun b hb => by simpa using hbs b hb
    change (st'.heap.live.filter fun b => b.1 ≠ p) = _
    rw [h.live, List.filter_append, List.filter_append, hst, hbs']
    simp

theorem Extends.free_null (h : Extends st st' bs) : Extends st (st'.free 0) bs where
  __ := h
  ok := h.ok.free 0
  live := by
    change (st'.heap.live.filter fun b => b.1 ≠ 0) = _
    rw [← h.live]
    exact List.filter_eq_self.2 fun b hb => by simpa using (h.ok.start_pos b hb).ne'

def nodeBlocks (type : NodeType) (n data : ℕ) : List (ℕ × ℕ) :=
  if type = .file then [(data, defaultFileSize), (n, sizeofNode)] else [(n, sizeofNode)]

def createdNode (name : List UInt8) (type : NodeType) (parent data : ℕ) : Node :=
  if type = .file then
    { newNode name type parent with data := data, capacity := defaultFileSize }
  else newNode name type parent

theorem tmpfsCreateInternalNode_cases (hok : st.heap.Ok) (name : List UInt8) (type : NodeType)
    (parent : ℕ) :
    (∃ st', tmpfsCreateInternalNode st name type parent = (st', 0) ∧ Extends st st' []) ∨
      ∃ st' n data, tmpfsCreateInternalNode st name type parent = (st', n) ∧ n ≠ 0 ∧
        Extends st st' (nodeBlocks type n data) ∧ st'.nodes n = createdNode name type parent data ∧
        st'.vnodes = st.vnodes := by
  rcases st.alloc_cases hok (n := sizeofNode) (by decide) with
    ⟨st₁, heq, hext⟩ | ⟨st₁, n, heq, hn, hfresh, hext, hv, -, -, -⟩
  · refine Or.inl ⟨st₁, ?_, hext⟩
    simp only [tmpfsCreateInternalNode, heq, if_true]
  have hset := hext.setNode hfresh fun _ => newNode name type parent
  by_cases htype : type = .file
  · subst htype
    rcases State.alloc_cases hset.ok (n := defaultFileSize) (by decide) with
      ⟨st₂, heq₂, hext₂⟩ | ⟨st₂, data, heq₂, hdata, hfresh₂, hext₂, hv₂, hn₂, -, -⟩
    · refine Or.inl ⟨st₂.free n, ?_, (hset.trans hext₂).free (fun _ hb => absurd hb List.not_mem_nil) hfresh⟩
      simp only [tmpfsCreateInternalNode, heq, if_neg hn, if_true, heq₂]
    · have hset₂ := (hset.trans hext₂).setNode hfresh fun e =>
        { e with data := data, capacity := defaultFileSize }
      refine Or.inr ⟨_, n, data, ?_, hn, hset₂, ?_, hv₂.trans hv⟩
      · simp only [tmpfsCreateInternalNode, heq, if_neg hn, if_true, heq₂, if_neg hdata]
      · change Function.update st₂.nodes n _ n = _
        rw [Function.update_self, hn₂]
        change (fun e : Node => { e with data := data, capacity := defaultFileSize })
          (Function.update st₁.nodes n _ n) = _
        rw [Function.update_self]
        rfl
  · refine Or.inr ⟨st₁.setNode n fun _ => newNode name type parent, n, 0, ?_, hn, ?_, ?_, hv⟩
    · simp only [tmpfsCreateInternalNode, heq, if_neg hn, if_neg htype]
    · rw [nodeBlocks, if_neg htype]
      exact hset
    · rw [createdNode, if_neg htype]
      exact Function.update_self ..

/-- A node without a vnode leaves no block behind. -/
theorem tmpfsDiscardNode_extends {type : NodeType} {data : ℕ} {name : List UInt8} {parent : ℕ}
    (hext : Extends st st' (nodeBlocks type n data))
    (hnode : st'.nodes n = createdNode name type parent data) :
    Extends st (tmpfsDiscardNode st' n) [] := by
  by_cases htype : type = .file
  · subst htype
    rw [nodeBlocks, if_pos rfl] at hext
    have hmem : ∀ b ∈ [(data, defaultFileSize), (n, sizeofNode)], b ∈ st'.heap.live := by
      intro b hb
      rw [hext.live]
      exact List.mem_append_left _ hb
    have hdata : (st'.nodes n).data = data := by rw [hnode]; rfl
    have hdata0 : data ≠ 0 := (hext.ok.start_pos _ (hmem (data, defaultFileSize) (by simp))).ne'
    have hne : ∀ b ∈ [(n, sizeofNode)], b.1 ≠ data := by
      intro b hb heq
      rw [List.mem_singleton] at hb
      subst hb
      have hblock := hext.ok.eq_of_start (hmem (n, sizeofNode) (by simp))
        (hmem (data, defaultFileSize) (by simp)) heq
      have hsize : sizeofNode = defaultFileSize := congrArg Prod.snd hblock
      exact absurd hsize (by decide)
    have hfirst := hext.free hne (hext.fresh (List.mem_cons_self ..))
    simp only [tmpfsDiscardNode, hdata, if_neg hdata0]
    exact hfirst.free (fun _ hb => absurd hb List.not_mem_nil) (hext.fresh (List.mem_cons_of_mem _ (List.mem_cons_self ..)))
  · rw [nodeBlocks, if_neg htype] at hext
    have hdata : (st'.nodes n).data = 0 := by rw [hnode, createdNode, if_neg htype]; rfl
    simp only [tmpfsDiscardNode, hdata, if_true]
    exact hext.free (fun _ hb => absurd hb List.not_mem_nil) (hext.fresh (List.mem_cons_self ..))

structure CanCreate (st : State) (dir : ℕ) (name : List UInt8) : Prop where
  vnode : dir ≠ 0
  node : (st.vnodes dir).internal ≠ 0
  named : name ≠ []
  directory : (st.internal dir).type = .directory
  short : name.length < maxFileName
  absent : findChild st (st.internal dir) name = none
  room : (st.internal dir).numChildren < maxChildren

/-- The checks fail without any effect; the target is left alone in the first of them. -/
theorem tmpfsCreateOrMkdir_refused {dir : ℕ} {name : List UInt8} (h : ¬ CanCreate st dir name)
    (target : ℕ) (type : NodeType) :
    ∃ r t, tmpfsCreateOrMkdir st dir target name type = (st, r, t) ∧ r < 0 ∧
      (t = 0 ∨ t = target ∧ (dir = 0 ∨ (st.vnodes dir).internal = 0 ∨ name = [])) := by
  by_cases hnull : dir = 0 ∨ (st.vnodes dir).internal = 0 ∨ name = []
  · exact ⟨einval, target, if_pos hnull, by decide, Or.inr ⟨rfl, hnull⟩⟩
  unfold tmpfsCreateOrMkdir
  rw [if_neg hnull]
  by_cases htype : (st.internal dir).type ≠ .directory
  · exact ⟨eacces, 0, if_pos htype, by decide, Or.inl rfl⟩
  rw [if_neg htype]
  by_cases hlen : maxFileName ≤ name.length
  · exact ⟨einval, 0, if_pos hlen, by decide, Or.inl rfl⟩
  rw [if_neg hlen]
  by_cases hfind : (findChild st (st.internal dir) name).isSome
  · exact ⟨eexist, 0, if_pos hfind, by decide, Or.inl rfl⟩
  rw [if_neg hfind]
  by_cases hfull : maxChildren ≤ (st.internal dir).numChildren
  · exact ⟨enomem, 0, if_pos hfull, by decide, Or.inl rfl⟩
  push Not at hnull
  exact absurd ⟨hnull.1, hnull.2.1, hnull.2.2, not_not.1 htype, not_le.1 hlen,
    Option.not_isSome_iff_eq_none.1 hfind, not_le.1 hfull⟩ h

def Node.append (e : Node) (v : ℕ) : Node :=
  { e with children := Function.update e.children e.numChildren v, numChildren := e.numChildren + 1 }

theorem Node.children_append (e : Node) (v : ℕ) :
    (List.range (e.append v).numChildren).map (e.append v).children =
      (List.range e.numChildren).map e.children ++ [v] := by
  simp only [Node.append, List.range_succ, List.map_append, List.map_singleton, Function.update_self]
  congr 1
  refine List.map_congr_left fun i hi => Function.update_of_ne ?_ _ _
  exact (List.mem_range.1 hi).ne

/-- Looking for a name among vnodes that keep theirs. -/
theorem find_name_congr (name : List UInt8) {l : List ℕ}
    (hl : ∀ c ∈ l, (st'.internal c).name = (st.internal c).name) :
    (l.find? fun c => (st'.internal c).name = name) =
      l.find? fun c => (st.internal c).name = name := by
  induction l with
  | nil => rfl
  | cons c l ih =>
      rw [List.find?_cons, List.find?_cons, hl c List.mem_cons_self,
        ih fun c' hc' => hl c' (List.mem_cons_of_mem _ hc')]

structure Created (st st' : State) (dir v : ℕ) (name : List UInt8) (type : NodeType) : Prop where
  vnode : v ≠ 0
  made : ∃ st₁ n data, n ≠ 0 ∧ st' = st₁.setNode (st.vnodes dir).internal (·.append v) ∧
    Extends st st₁ ((v, sizeofVnode) :: nodeBlocks type n data) ∧
    st₁.vnodes v = ⟨(st.vnodes dir).mount, some .tmpfs, some .tmpfs, n, dir, false⟩ ∧
    st₁.nodes n = createdNode name type (st.vnodes dir).internal data

/-- A creation runs out of memory without any effect, or adds a vnode with a node behind it. -/
theorem tmpfsCreateOrMkdir_cases (hok : st.heap.Ok) {dir : ℕ} {name : List UInt8}
    (h : CanCreate st dir name) (target : ℕ) (type : NodeType) :
    (∃ st', tmpfsCreateOrMkdir st dir target name type = (st', enomem, 0) ∧ Extends st st' []) ∨
      ∃ st' v, tmpfsCreateOrMkdir st dir target name type = (st', 0, v) ∧
        Created st st' dir v name type := by
  have hnull : ¬ (dir = 0 ∨ (st.vnodes dir).internal = 0 ∨ name = []) := by
    rintro (h' | h' | h')
    · exact h.vnode h'
    · exact h.node h'
    · exact h.named h'
  have habsent : ¬ (findChild st (st.internal dir) name).isSome := by simp [h.absent]
  unfold tmpfsCreateOrMkdir
  rw [if_neg hnull, if_neg (not_not.2 h.directory), if_neg (not_le.2 h.short), if_neg habsent,
    if_neg (not_le.2 h.room)]
  rcases tmpfsCreateInternalNode_cases hok name type (st.vnodes dir).internal with
    ⟨st₁, heq, hext⟩ | ⟨st₁, n, data, heq, hn, hext, hnode, hv⟩
  · refine Or.inl ⟨st₁, ?_, hext⟩
    simp only [heq, if_true]
  rcases State.alloc_cases hext.ok (n := sizeofVnode) (by decide) with
    ⟨st₂, heq₂, hext₂⟩ | ⟨st₂, v, heq₂, hv0, hfresh₂, hext₂, hv₂, hn₂, -, -⟩
  · have hnode₂ : st₂.nodes n = createdNode name type (st.vnodes dir).internal data := by
      rw [← hnode]
      refine hext₂.node (n, sizeofNode) ?_
      rw [hext.live, nodeBlocks]
      split_ifs <;> simp
    refine Or.inl ⟨tmpfsDiscardNode st₂ n, ?_, tmpfsDiscardNode_extends (hext.trans hext₂) hnode₂⟩
    simp only [heq, if_neg hn, heq₂, if_true]
  · have hfresh : Extends.Fresh st v := fun b hb => hfresh₂ b (hext.mem_live hb)
    refine Or.inr ⟨_, v, ?_, hv0, st₂.setVnode v fun _ =>
      ⟨(st₂.vnodes dir).mount, some .tmpfs, some .tmpfs, n, dir, false⟩, n, data, hn, rfl,
      (hext.trans hext₂).setVnode hfresh _, ?_, ?_⟩
    · simp only [heq, if_neg hn, heq₂, if_neg hv0]
      rfl
    · change Function.update st₂.vnodes v _ v = _
      rw [Function.update_self, hv₂, hv]
    · change st₂.nodes n = _
      rw [hn₂, hnode]

/-- The vnodes `T` and their nodes are blocks of the heap, and no two share a node. -/
structure OwnNodes (st : State) (T : Set ℕ) : Prop where
  vnode : ∀ w ∈ T, (w, sizeofVnode) ∈ st.heap.live
  node : ∀ w ∈ T, ((st.vnodes w).internal, sizeofNode) ∈ st.heap.live
  inj : ∀ w ∈ T, ∀ u ∈ T, (st.vnodes w).internal = (st.vnodes u).internal → w = u

theorem OwnNodes.internal {T : Set ℕ} (h : OwnNodes st T) (he : Extends st st' bs) {w : ℕ}
    (hw : w ∈ T) : st'.internal w = st.internal w := by
  rw [State.internal, he.vnode _ (h.vnode w hw)]
  exact he.node _ (h.node w hw)

/-- The directory `dir` of `T` has got the child `v`, and nothing else of `T` has changed. -/
structure Appended (st st' : State) (T : Set ℕ) (dir v : ℕ) (name : List UInt8) : Prop where
  fresh : v ∉ T
  vnode : ∀ w ∈ T, st'.vnodes w = st.vnodes w
  other : ∀ w ∈ T, w ≠ dir → st'.internal w = st.internal w
  self : st'.internal dir = (st.internal dir).append v
  name : (st'.internal v).name = name

section Appended

variable {T : Set ℕ} {dir v w : ℕ} {name name' : List UInt8} {type : NodeType}

theorem Created.appended (hc : Created st st' dir v name type) (h : OwnNodes st T) (hd : dir ∈ T) :
    Appended st st' T dir v name := by
  obtain ⟨-, st₁, n, data, -, rfl, hext, hvnode, hnode⟩ := hc
  have hnblock : (n, sizeofNode) ∈ (v, sizeofVnode) :: nodeBlocks type n data := by
    rw [nodeBlocks]
    split_ifs <;> simp
  have hdir : st₁.vnodes dir = st.vnodes dir := hext.vnode _ (h.vnode dir hd)
  refine ⟨fun hv => ?_, fun w hw => hext.vnode _ (h.vnode w hw), fun w hw hne => ?_, ?_, ?_⟩
  · exact hext.fresh (List.mem_cons_self ..) _ (h.vnode v hv) rfl
  · rw [State.internal_setNode_of_ne, h.internal hext hw]
    rw [hext.vnode _ (h.vnode w hw)]
    exact fun heq => hne (h.inj w hw dir hd heq)
  · rw [← hdir, State.internal_setNode_self, h.internal hext hd]
  · rw [State.internal_setNode_of_ne, State.internal, hvnode]
    · change (st₁.nodes n).name = name
      rw [hnode, createdNode]
      split_ifs <;> rfl
    · rw [hvnode]
      exact fun heq => hext.fresh hnblock _ (h.node dir hd) heq.symm

namespace Appended

variable (h : Appended st st' T dir v name)
include h

theorem childName (hw : w ∈ T) : (st'.internal w).name = (st.internal w).name := by
  by_cases hne : w = dir
  · rw [hne, h.self]
    rfl
  · rw [h.other w hw hne]

/-- The directory finds what it found before, and then the new vnode under its name. -/
theorem findChild_dir (name' : List UInt8)
    (hl : ∀ i < (st.internal dir).numChildren, (st.internal dir).children i ∈ T) :
    findChild st' (st'.internal dir) name' =
      (findChild st (st.internal dir) name').or (if name = name' then some v else none) := by
  have hold : ∀ c ∈ (List.range (st.internal dir).numChildren).map (st.internal dir).children,
      c ∈ T := by
    intro c hc
    obtain ⟨i, hi, rfl⟩ := List.mem_map.1 hc
    exact hl i (List.mem_range.1 hi)
  rw [h.self, findChild, Node.children_append, List.find?_append, find_name_congr name' fun c hc => h.childName (hold c hc), findChild]
  congr 1
  simp only [List.find?_cons, List.find?_nil, h.name]
  split_ifs with hn <;> simp [hn]

end Appended

end Appended

end OscKernel.Vfs
