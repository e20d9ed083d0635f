import OscKernel.InitramfsFiles
import OscKernel.OpenFiles

/-!
# The files of the tree

A file is a vnode of type file; the root of an initramfs does not count, which has no type until it is
filled. The bytes of a file lie in a block of its own, and what calls do to the tree does not touch the
blocks of the files that are there.
-/

namespace OscKernel.Vfs

open Mm (maxAllocSize)

abbrev Contents := ℕ → Option (VnodeOps × List UInt8)

def IsFile (st : State) (v : ℕ) : Prop :=
  (st.internal v).type = .file ∧ ((st.vnodes v).vOps = some .initramfs → (st.vnodes v).parentIsMount = false)

structure StoredFile (st : State) (v : ℕ) (x : VnodeOps × List UInt8) : Prop where
  isFile : IsFile st v
  vOps : (st.vnodes v).vOps = some x.1
  fOps : (st.vnodes v).fOps = some .initramfs → x.1 = .initramfs
  size_le : (st.internal v).size ≤ (st.internal v).capacity
  capacity_le : (st.internal v).capacity ≤ maxAllocSize
  live : (st.internal v).capacity ≠ 0 → ((st.internal v).data, (st.internal v).capacity) ∈ st.heap.live
  content : ByteMem.read st.mem (st.internal v).data (st.internal v).size = x.2

structure Stored (st : State) (T : Set ℕ) (c : Contents) : Prop where
  stored : ∀ v x, c v = some x → v ∈ T ∧ StoredFile st v x
  all : ∀ v ∈ T, IsFile st v → c v ≠ none
  apart : ∀ v w, c v ≠ none → c w ≠ none → (st.internal v).capacity ≠ 0 → (st.internal w).capacity ≠ 0 →
    (st.internal v).data = (st.internal w).data → v = w

def NoData (st : State) (c : Contents) (p : ℕ) : Prop :=
  ∀ v, c v ≠ none → (st.internal v).capacity ≠ 0 → (st.internal v).data ≠ p

/-- `v` is the same file, or none in both states; the operations of handles may become those of a device. -/
structure SameFile (st st' : State) (v : ℕ) : Prop where
  isFile : IsFile st' v ↔ IsFile st v
  vOps : (st'.vnodes v).vOps = (st.vnodes v).vOps
  fOps : (st'.vnodes v).fOps = some .initramfs → (st.vnodes v).fOps = some .initramfs
  data : (st'.internal v).data = (st.internal v).data
  size : (st'.internal v).size = (st.internal v).size
  capacity : (st'.internal v).capacity = (st.internal v).capacity

variable {st st₁ st' : State} {T T₁ T' : Set ℕ} {c c₁ c' : Contents} {v w p dir n : ℕ}
  {x : VnodeOps × List UInt8} {bs : List (ℕ × ℕ)} {name : List UInt8}

theorem SameFile.refl (st : State) (v : ℕ) : SameFile st st v := ⟨Iff.rfl, rfl, id, rfl, rfl, rfl⟩

theorem SameFile.of_eq (hv : st'.vnodes v = st.vnodes v) (hn : st'.internal v = st.internal v) :
    SameFile st st' v :=
  ⟨by rw [IsFile, IsFile, hv, hn], by rw [hv], by rw [hv]; exact id, by rw [hn], by rw [hn], by rw [hn]⟩

namespace Stored

theorem mem (h : Stored st T c) (hv : c v ≠ none) : v ∈ T ∧ IsFile st v := by
  obtain ⟨x, hx⟩ := Option.ne_none_iff_exists'.1 hv
  exact ⟨(h.stored v x hx).1, (h.stored v x hx).2.isFile⟩

theorem eq_none (h : Stored st T c) (hv : v ∉ T) : c v = none := by
  by_contra hne
  exact hv (h.mem hne).1

/-- The files stay where nothing of theirs changes. -/
theorem frame (h : Stored st T c) (hsame : ∀ v ∈ T, SameFile st st' v)
    (hlive : ∀ v, c v ≠ none → (st.internal v).capacity ≠ 0 →
      ((st.internal v).data, (st.internal v).capacity) ∈ st'.heap.live)
    (hmem : ∀ v, c v ≠ none → ∀ a, (st.internal v).data ≤ a →
      a < (st.internal v).data + (st.internal v).capacity → st'.mem a = st.mem a) : Stored st' T c where
  stored v x hx := by
    obtain ⟨hv, hf⟩ := h.stored v x hx
    have hs := hsame v hv
    have hne : c v ≠ none := by rw [hx]; exact Option.some_ne_none x
    refine ⟨hv, hs.isFile.2 hf.isFile, hs.vOps.trans hf.vOps, fun hi => hf.fOps (hs.fOps hi), ?_, ?_, ?_, ?_⟩
    · rw [hs.size, hs.capacity]
      exact hf.size_le
    · rw [hs.capacity]
      exact hf.capacity_le
    · rw [hs.data, hs.capacity]
      exact hlive v hne
    · rw [hs.data, hs.size, ← hf.content]
      refine ByteMem.read_congr _ _ fun a hlo hhi => hmem v hne a hlo ?_
      have := hf.size_le
      omega
  all v hv hf := h.all v hv ((hsame v hv).isFile.1 hf)
  apart v w hv hw := by
    have hsv := hsame v (h.mem hv).1
    have hsw := hsame w (h.mem hw).1
    rw [hsv.capacity, hsw.capacity, hsv.data, hsw.data]
    exact h.apart v w hv hw

theorem insert (h : Stored st T c) (hnot : ¬ IsFile st v) : Stored st (Insert.insert v T) c where
  stored w x hx := ⟨Set.mem_insert_of_mem _ (h.stored w x hx).1, (h.stored w x hx).2⟩
  all w hw hf := by
    rcases hw with rfl | hw
    · exact absurd hf hnot
    · exact h.all w hw hf
  apart := h.apart

theorem insertFile (h : Stored st T c) (hf : StoredFile st v x)
    (hnew : (st.internal v).capacity ≠ 0 → NoData st c (st.internal v).data) :
    Stored st (Insert.insert v T) (Function.update c v (some x)) where
  stored w y hy := by
    by_cases hw : w = v
    · rw [hw, Function.update_self] at hy
      rw [hw, ← Option.some.inj hy]
      exact ⟨Set.mem_insert .., hf⟩
    · rw [Function.update_of_ne hw] at hy
      exact ⟨Set.mem_insert_of_mem _ (h.stored w y hy).1, (h.stored w y hy).2⟩
  all w hw hfile := by
    by_cases hwv : w = v
    · rw [hwv, Function.update_self]
      exact Option.some_ne_none x
    · rw [Function.update_of_ne hwv]
      exact h.all w (hw.resolve_left hwv) hfile
  apart u w hu hw hcu hcw heq := by
    by_cases huv : u = v <;> by_cases hwv : w = v
    · rw [huv, hwv]
    · rw [Function.update_of_ne hwv] at hw
      rw [huv] at hcu heq
      exact absurd heq.symm (hnew hcu w hw hcw)
    · rw [Function.update_of_ne huv] at hu
      rw [hwv] at hcw heq
      exact absurd heq (hnew hcw u hu hcu)
    · rw [Function.update_of_ne huv] at hu
      rw [Function.update_of_ne hwv] at hw
      exact h.apart u w hu hw hcu hcw heq

/-- The data of a file is in a block in use. -/
theorem noData_of_fresh (h : Stored st T c) (hp : Extends.Fresh st p) : NoData st c p := by
  intro v hv hcap
  obtain ⟨x, hx⟩ := Option.ne_none_iff_exists'.1 hv
  exact hp _ ((h.stored v x hx).2.live hcap)

/-- Blocks that come to the heap leave the files. -/
theorem extend (h : Tree st T) (hc : Stored st T c) (he : Extends st st' bs) :
    Stored st' T c := by
  refine hc.frame (fun v hv => SameFile.of_eq (he.vnode _ (h.vnode v hv)) (h.ownNodes.internal he hv)) ?_ ?_
  · intro v hv hcap
    obtain ⟨x, hx⟩ := Option.ne_none_iff_exists'.1 hv
    exact he.mem_live ((hc.stored v x hx).2.live hcap)
  · intro v _ a _ _
    rw [he.mem]

end Stored

/-- The files `c` become `c'` while the tree grows, and a handle whose block has no data is left alone. -/
structure FilesStep (st st' : State) (T T' : Set ℕ) (c c' : Contents) : Prop where
  grows : Grows st st' T T'
  stored : Stored st' T' c'
  old : ∀ v ∈ T, c' v = c v
  handle : ∀ p, (p, sizeofFile) ∈ st.heap.live → st'.files p = st.files p
  noData : ∀ p, (p, sizeofFile) ∈ st.heap.live → NoData st c p → NoData st' c' p

namespace FilesStep

theorem trans (h₁ : FilesStep st st₁ T T₁ c c₁) (h₂ : FilesStep st₁ st' T₁ T' c₁ c') :
    FilesStep st st' T T' c c' :=
  ⟨h₁.grows.trans h₂.grows, h₂.stored,
    fun v hv => (h₂.old v (h₁.grows.subset hv)).trans (h₁.old v hv),
    fun p hp => (h₂.handle p (h₁.grows.handle p hp).1).trans (h₁.handle p hp),
    fun p hp hn => h₂.noData p (h₁.grows.handle p hp).1 (h₁.noData p hp hn)⟩

/-- A step that makes no file. -/
theorem of_same (hc : Stored st T c) (hg : Grows st st' T T') (hc' : Stored st' T' c)
    (hhandle : ∀ p, (p, sizeofFile) ∈ st.heap.live → st'.files p = st.files p)
    (hsame : ∀ v ∈ T, SameFile st st' v) : FilesStep st st' T T' c c where
  grows := hg
  stored := hc'
  old _ _ := rfl
  handle := hhandle
  noData p _ hn v hv hcap := by
    have hs := hsame v (hc.mem hv).1
    rw [hs.capacity] at hcap
    rw [hs.data]
    exact hn v hv hcap

theorem refl (h : Tree st T) (hc : Stored st T c) : FilesStep st st T T c c :=
  of_same hc (Grows.refl h) hc (fun _ _ => rfl) fun v _ => SameFile.refl st v

theorem extend (h : Tree st T) (hc : Stored st T c) (he : Extends st st' bs) : FilesStep st st' T T c c :=
  of_same hc (Grows.extend h he) (hc.extend h he) (fun _ hp => he.file _ hp) fun v hv =>
    SameFile.of_eq (he.vnode _ (h.vnode v hv)) (h.ownNodes.internal he hv)

theorem offTree (h : Tree st T) (hc : Stored st T c) (ho : OffTree st T p) :
    FilesStep st (st.free p) T T c c := by
  refine of_same hc (Grows.offTree h ho) ?_ (fun _ _ => rfl) fun v _ => SameFile.of_eq rfl rfl
  refine hc.frame (fun v _ => SameFile.of_eq rfl rfl) (fun v hv hcap => ?_) fun _ _ _ _ _ => rfl
  obtain ⟨x, hx⟩ := Option.ne_none_iff_exists'.1 hv
  have hmem := hc.mem hv
  exact Heap.mem_free.2 ⟨(hc.stored v x hx).2.live hcap, ho.data v hmem.1 hmem.2.1⟩

end FilesStep

/-- Only the directory `dir` changes, which gets one child more. -/
theorem Keeps.sameFile (hk : Keeps st st' T dir) (hself : st'.internal dir = (st.internal dir).append v)
    (hw : w ∈ T) : SameFile st st' w := by
  by_cases hwd : w = dir
  · rw [hwd] at hw ⊢
    have hv := hk.vnode dir hw
    exact ⟨by rw [IsFile, IsFile, hv, hself]; rfl, by rw [hv], by rw [hv]; exact id, by rw [hself]; rfl,
      by rw [hself]; rfl, by rw [hself]; rfl⟩
  · exact SameFile.of_eq (hk.vnode w hw) (hk.internal w hw hwd)

theorem Keeps.stored (hk : Keeps st st' T dir) (hself : st'.internal dir = (st.internal dir).append v)
    (hc : Stored st T c) : Stored st' T c := by
  have hblock : ∀ w, c w ≠ none → (st.internal w).capacity ≠ 0 →
      ((st.internal w).data, (st.internal w).capacity) ∈ st.heap.live := by
    intro w hw hcap
    obtain ⟨x, hx⟩ := Option.ne_none_iff_exists'.1 hw
    exact (hc.stored w x hx).2.live hcap
  refine hc.frame (fun w hw => hk.sameFile hself hw) (fun w hw hcap => hk.live _ (hblock w hw hcap)) ?_
  intro w hw a hlo hhi
  exact hk.mem _ (hblock w hw (by omega)) a hlo hhi

/-- A file comes to the tree, with its bytes in a block that was not in use. -/
theorem FilesStep.attach (hk : Keeps st st' T dir) (hself : st'.internal dir = (st.internal dir).append v)
    (hg : Grows st st' T (insert v T))
    (hhandle : ∀ p, (p, sizeofFile) ∈ st.heap.live → st'.files p = st.files p) (hc : Stored st T c)
    (hf : StoredFile st' v x)
    (hv : v ∉ T) (hfresh : (st'.internal v).capacity ≠ 0 → Extends.Fresh st (st'.internal v).data) :
    FilesStep st st' T (insert v T) c (Function.update c v (some x)) := by
  refine ⟨hg, (hk.stored hself hc).insertFile hf fun hcap w hw hcapw => ?_, fun w hw => ?_, hhandle,
    fun p hp hn w hw hcap => ?_⟩
  · have hs := hk.sameFile hself (hc.mem hw).1
    rw [hs.capacity] at hcapw
    rw [hs.data]
    exact hc.noData_of_fresh (hfresh hcap) w hw hcapw
  · refine Function.update_of_ne ?_ ..
    rintro rfl
    exact hv hw
  · by_cases hwv : w = v
    · rw [hwv] at hcap ⊢
      exact (hfresh hcap _ hp).symm
    · rw [Function.update_of_ne hwv] at hw
      have hs := hk.sameFile hself (hc.mem hw).1
      rw [hs.capacity] at hcap
      rw [hs.data]
      exact hn w hw hcap

namespace Created

variable {type : NodeType}

theorem handle (hd : Created st st' dir v name type) {q : ℕ} (hq : (q, sizeofFile) ∈ st.heap.live) :
    st'.files q = st.files q := by
  obtain ⟨-, st₁, n, data, -, rfl, hext, -⟩ := hd
  exact hext.file _ hq

/-- The node behind the new vnode. -/
theorem internal (hd : Created st st' dir v name type) (h : Tree st T) (hdir : dir ∈ T) :
    ∃ data, st'.internal v = createdNode name type (st.vnodes dir).internal data ∧
      st'.vnodes v = ⟨(st.vnodes dir).mount, some .tmpfs, some .tmpfs, (st'.vnodes v).internal, dir, false⟩ ∧
      (type = .file → Extends.Fresh st data ∧ (data, defaultFileSize) ∈ st'.heap.live) := by
  obtain ⟨-, st₁, n, data, -, rfl, hext, hvnode, hnode⟩ := hd
  have hnblock : (n, sizeofNode) ∈ nodeBlocks type n data := by
    rw [nodeBlocks]
    split_ifs <;> simp
  have hne : (st₁.vnodes v).internal ≠ (st.vnodes dir).internal := by
    rw [hvnode]
    exact (hext.fresh (List.mem_cons_of_mem _ hnblock) _ (h.node dir hdir)).symm
  refine ⟨data, ?_, ?_, fun htype => ?_⟩
  · rw [State.internal_setNode_of_ne _ _ hne, State.internal, hvnode]
    exact hnode
  · change st₁.vnodes v = ⟨_, _, _, (st₁.vnodes v).internal, _, _⟩
    rw [hvnode]
  · have hblock : (data, defaultFileSize) ∈ (v, sizeofVnode) :: nodeBlocks type n data := by
      rw [nodeBlocks, if_pos htype]
      simp
    refine ⟨hext.fresh hblock, ?_⟩
    change _ ∈ st₁.heap.live
    rw [hext.live]
    exact List.mem_append_left _ hblock

/-- A new directory is no file. -/
theorem filesStep_directory (hd : Created st st' dir v name .directory) (h : Tree st T) (hdir : dir ∈ T)
    (hc : Stored st T c) : FilesStep st st' T (insert v T) c c := by
  have hk := hd.keeps h hdir
  have hself := (hd.frame h hdir).self
  refine FilesStep.of_same hc (Grows.created h hdir hd) ((hk.stored hself hc).insert ?_)
    (fun _ hq => hd.handle hq) fun w hw => hk.sameFile hself hw
  obtain ⟨data, hnode, -, -⟩ := hd.internal h hdir
  rintro ⟨htype, -⟩
  rw [hnode] at htype
  cases htype

/-- A new file is empty. -/
theorem filesStep_file (hd : Created st st' dir v name .file) (h : Tree st T) (hdir : dir ∈ T)
    (hc : Stored st T c) :
    FilesStep st st' T (insert v T) c (Function.update c v (some (.tmpfs, []))) ∧ c v = none := by
  obtain ⟨data, hnode, hvnode, hdata⟩ := hd.internal h hdir
  obtain ⟨hfresh, hlive⟩ := hdata rfl
  have hf := hd.frame h hdir
  have hnew : StoredFile st' v (.tmpfs, []) := by
    refine ⟨⟨by rw [hnode]; rfl, fun _ => by rw [hvnode]⟩, by rw [hvnode], ?_, ?_, ?_, ?_, ?_⟩
    · rw [hvnode]
      exact fun hi => by cases hi
    · rw [hnode]
      exact Nat.zero_le _
    · rw [hnode]
      exact (by decide : defaultFileSize ≤ maxAllocSize)
    · rw [hnode]
      exact fun _ => hlive
    · rw [hnode]
      rfl
  refine ⟨FilesStep.attach (hd.keeps h hdir) hf.self (Grows.created h hdir hd) (fun _ hq => hd.handle hq) hc
    hnew hf.fresh fun _ => ?_, hc.eq_none hf.fresh⟩
  rw [hnode]
  exact hfresh

end Created

/-- The root of a file system that is mounted is no file. -/
theorem Mounted.filesStep {d m r fs : ℕ} {ops : VnodeOps} (hm : Mounted st st' d m r n fs ops) (h : Tree st T)
    (hd : d ∈ T) (hroot : d ≠ st.root) (hmount : (st.vnodes d).mount = 0)
    (hplain : (st.vnodes d).parentIsMount = false) (hc : Stored st T c) :
    FilesStep st st' T (insert r T) c c := by
  have hf := hm.frame h hd
  have hsame : ∀ w ∈ T, SameFile st st' w := by
    intro w hw
    by_cases hwd : w = d
    · rw [hwd]
      have hn := hf.internal d hd
      exact ⟨by rw [IsFile, IsFile, hf.self, hn], by rw [hf.self], by rw [hf.self]; exact id, by rw [hn],
        by rw [hn], by rw [hn]⟩
    · exact SameFile.of_eq (hf.vnode w hw hwd) (hf.internal w hw)
  have hstored : Stored st' T c := by
    refine hc.frame hsame (fun w hw hcap => ?_) fun w _ a _ _ => congrFun hf.mem a
    obtain ⟨x, hx⟩ := Option.ne_none_iff_exists'.1 hw
    exact hf.live _ ((hc.stored w x hx).2.live hcap)
  have hhandle : ∀ q, (q, sizeofFile) ∈ st.heap.live → st'.files q = st.files q := by
    intro q hq
    obtain ⟨st₁, hset, rfl⟩ := hm
    exact hset.extend.file _ hq
  refine FilesStep.of_same hc (hm.grows h hd hroot hmount hplain) (hstored.insert ?_) hhandle hsame
  rintro ⟨htype, hinit⟩
  obtain ⟨st₁, hset, rfl⟩ := hm
  have hself : (st₁.setVnode r fun e => { e with parent := d }).vnodes r =
      { st₁.vnodes r with parent := d } := State.vnodes_setVnode_self ..
  obtain ⟨-, hops, -, hnode, hmark⟩ := hset.vnode
  cases ops with
  | tmpfs =>
      rw [State.internal, hself] at htype
      change (st₁.nodes (st₁.vnodes r).internal).type = .file at htype
      rw [hnode, hset.directory rfl] at htype
      cases htype
  | initramfs =>
      rw [hself] at hinit
      rw [hmark] at hinit
      exact absurd (hinit hops) Bool.noConfusion

/-- Making a device of a vnode. -/
theorem FilesStep.setFOps (h : Tree st T) (hv : v ∈ T) {ops : FileOps}
    (hdev : ops = .uart ∨ ops = .framebuffer) (hc : Stored st T c) :
    FilesStep st (st.setVnode v fun e => { e with fOps := some ops }) T T c c := by
  have hvnode := State.vnodes_setFOps st v ops
  have hops : ops ≠ .tmpfs ∧ ops ≠ .initramfs := by rcases hdev with rfl | rfl <;> decide
  have hint : ∀ w, (st.setVnode v fun e => { e with fOps := some ops }).internal w = st.internal w := by
    intro w
    rw [State.internal, hvnode]
    rfl
  have hsame : ∀ w ∈ T, SameFile st (st.setVnode v fun e => { e with fOps := some ops }) w := by
    intro w _
    refine ⟨by rw [IsFile, IsFile, hint, hvnode], by rw [hvnode], ?_, by rw [hint], by rw [hint],
      by rw [hint]⟩
    rw [hvnode]
    dsimp only
    split_ifs
    · exact fun heq => absurd (Option.some.inj heq) hops.2
    · exact id
  have hkept : MountsKept st (st.setVnode v fun e => { e with fOps := some ops }) T T := by
    refine ⟨fun w _ => ?_, fun w _ _ => ?_, fun w _ htype => ?_, ⟨List.prefix_rfl, fun _ _ => rfl⟩,
      fun hr => hr.setFOps h v ops⟩
    · rw [hvnode]
      exact ⟨rfl, rfl⟩
    · rw [hvnode]
      exact ⟨rfl, rfl⟩
    · rw [hint]
      exact htype
  have hg : Grows st (st.setVnode v fun e => { e with fOps := some ops }) T T :=
    ⟨h.setFOps hv hops.1, Set.Subset.rfl, rfl, fun w _ => by rw [hvnode], fun p hp => ⟨hp, rfl, rfl⟩, hkept⟩
  refine FilesStep.of_same hc hg (hc.frame hsame (fun w hw hcap => ?_) fun _ _ _ _ _ => rfl) (fun _ _ => rfl)
    hsame
  obtain ⟨x, hx⟩ := Option.ne_none_iff_exists'.1 hw
  exact (hc.stored w x hx).2.live hcap

/-- The root of an initramfs becomes a directory. -/
theorem FilesStep.setDirectory (h : Tree st T) (hv : v ∈ T) (hops : (st.vnodes v).vOps = some .initramfs)
    (hmark : (st.vnodes v).parentIsMount = true) (hc : Stored st T c) :
    FilesStep st (st.setNode (st.vnodes v).internal fun e => { e with type := .directory }) T T c c := by
  have hsame : ∀ w ∈ T,
      SameFile st (st.setNode (st.vnodes v).internal fun e => { e with type := .directory }) w := by
    intro w hw
    by_cases hwv : w = v
    · have hself : (st.setNode (st.vnodes v).internal fun e => { e with type := .directory }).internal v =
          { st.internal v with type := .directory } := Function.update_self ..
      rw [hwv]
      refine ⟨⟨fun hf => ?_, fun hf => ?_⟩, rfl, id, by rw [hself], by rw [hself], by rw [hself]⟩
      · rw [IsFile, hself] at hf
        cases hf.1
      · exact absurd (hf.2 hops) (by rw [hmark]; exact Bool.noConfusion)
    · exact SameFile.of_eq rfl (State.internal_setNode_of_ne _ _ fun heq => hwv (h.node_inj w hw v hv heq))
  refine FilesStep.of_same hc (setDirectory_grows h v) (hc.frame hsame (fun w hw hcap => ?_)
    fun _ _ _ _ _ => rfl) (fun _ _ => rfl) hsame
  obtain ⟨x, hx⟩ := Option.ne_none_iff_exists'.1 hw
  exact (hc.stored w x hx).2.live hcap

/-- A round of `initramfs_init` makes a file with the data of the entry. -/
theorem Added.filesStep {e : Entry} (ha : Added st st' dir v e) (h : Tree st T) (hdir : dir ∈ T)
    (hc : Stored st T c) :
    FilesStep st st' T (insert v T) c (Function.update c v (some (.initramfs, e.data))) ∧ c v = none := by
  have hfile := ha.fileOf h hdir
  obtain ⟨hfreshv, hself⟩ := ha.dir h hdir
  have hk := ha.keeps h hdir
  have hg := ha.grows h hdir
  have hhandle : ∀ q, (q, sizeofFile) ∈ st.heap.live → st'.files q = st.files q := by
    intro q hq
    obtain ⟨-, -, st₁, n, data, -, -, hext, -, -, rfl⟩ := ha
    exact hext.file _ hq
  obtain ⟨-, -, st₁, n, data, -, hdata, hext, hvnode, hnode, rfl⟩ := ha
  have hnblock : (n, sizeofNode) ∈ (v, sizeofVnode) :: entryBlocks e n data := by
    rw [entryBlocks]
    split_ifs <;> simp
  have hint : (st₁.setNode (st.vnodes dir).internal (·.append v)).internal v = entryNode e data := by
    rw [State.internal_setNode_of_ne, State.internal, hvnode]
    · exact hnode
    · rw [hvnode]
      exact (hext.fresh hnblock _ (h.node dir hdir)).symm
  have hv : (st₁.setNode (st.vnodes dir).internal (·.append v)).vnodes v =
      ⟨0, some .initramfs, some .initramfs, n, dir, false⟩ := hvnode
  have hcapacity : (entryNode e data).capacity = e.data.length := rfl
  have hempty : (entryNode e data).capacity ≠ 0 → e.data ≠ [] := by
    intro hcap hnil
    rw [hcapacity, hnil] at hcap
    exact hcap rfl
  have hnew : StoredFile (st₁.setNode (st.vnodes dir).internal (·.append v)) v (.initramfs, e.data) := by
    refine ⟨⟨hfile.type, fun _ => by rw [hv]⟩, by rw [hv], fun _ => rfl, ?_, ?_, ?_, ?_⟩
    · rw [hint]
      exact le_rfl
    · rw [hint]
      exact hfile.small
    · rw [hint, hcapacity]
      intro hcap
      have hl := hfile.live (hempty hcap)
      rw [hint] at hl
      exact hl
    · have hcontent := hfile.content
      rw [hint] at hcontent ⊢
      exact hcontent
  refine ⟨FilesStep.attach hk hself hg hhandle hc hnew hfreshv fun hcap => ?_, hc.eq_none hfreshv⟩
  rw [hint] at hcap ⊢
  have hblock : (data, e.data.length) ∈ (v, sizeofVnode) :: entryBlocks e n data := by
    rw [entryBlocks, if_neg fun h0 => hempty hcap (hdata h0)]
    simp
  exact hext.fresh hblock

end OscKernel.Vfs
