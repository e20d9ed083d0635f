import OscKernel.FailedLookups
import OscKernel.InitramfsInit
import OscKernel.OpenOutcomes

/-!
# The initramfs in its place

Once the file system of the archive is mounted and filled, calls on paths that do not lead into it leave it
as it is: they walk through the root file system, and whatever they make is made there.
-/

namespace OscKernel.Vfs

variable {st st₁ st' : State} {T T' : Set ℕ} {d r v w k dir target file : ℕ} {es : List Entry} {vs : List ℕ}
  {bs : List (ℕ × ℕ)} {name path : List UInt8} {names : List (List UInt8)} {type : NodeType}
  {flags : BitVec 32} {x : ℤ}

/-- The root file system has the directory `initramfs`, where `d` is. A file system with the root `r` is
mounted on it, and there is no other mount. -/
structure SoleMount (st : State) (T : Set ℕ) (d r : ℕ) : Prop where
  tree : Tree st T
  hierarchy : Hierarchy st T
  directory : (st.internal st.root).type = .directory
  find : findChild st (st.internal st.root) initramfsName = some d
  mounted : (st.vnodes d).mount ≠ 0 ∧ (st.mounts (st.vnodes d).mount).root = r
  only : ∀ w ∈ T, (st.vnodes w).mount ≠ 0 → w = d

theorem SoleMount.sameTree (h : SoleMount st T d r) (ht : Tree st' T) (hsame : SameTree st st') :
    SoleMount st' T d r where
  tree := ht
  hierarchy := by
    refine h.hierarchy.congr h.tree (fun w _ => ?_) (fun w _ _ => ?_) (fun w _ => ?_) hsame.root
    · rw [hsame.vnodes]
      exact ⟨rfl, rfl, rfl⟩
    · rw [hsame.mounts]
    · rw [hsame.internal]
      exact ⟨rfl, rfl⟩
  directory := by
    rw [hsame.root, hsame.internal]
    exact h.directory
  find := by
    rw [hsame.root]
    exact (Places.of_sameTree hsame).findChild h.tree h.tree.root h.find
  mounted := by
    rw [hsame.vnodes, hsame.mounts]
    exact h.mounted
  only w hw hm := h.only w hw (by rwa [← hsame.vnodes])

structure Ready (st : State) (T : Set ℕ) (d r : ℕ) (es : List Entry) (vs : List ℕ) : Prop
    extends SoleMount st T d r where
  filled : Filled st T r es vs

def Away (d r : ℕ) (vs : List ℕ) (w : ℕ) : Prop := w ≠ d ∧ w ≠ r ∧ w ∉ vs

def Harmless (name : List UInt8) : Prop := name ≠ initramfsName ∧ name ≠ dotName ∧ name ≠ dotDotName

instance (name : List UInt8) : Decidable (Harmless name) := inferInstanceAs (Decidable (_ ∧ _))

/-- Only the vnodes and nodes of the root and of its files matter. -/
theorem Filled.same (hf : Filled st T r es vs) (h : Tree st T)
    (hvnode : ∀ w, w = r ∨ w ∈ vs → st'.vnodes w = st.vnodes w)
    (hint : ∀ w, w = r ∨ w ∈ vs → st'.internal w = st.internal w) (hb : KeepsBlocks st st') :
    Filled st' T r es vs := by
  have hne : ∀ {w}, w ∈ T → w ≠ 0 := fun hw => h.ne_zero hw
  have hpart : Filled st {w | w = r ∨ w ∈ vs} r es vs :=
    ⟨Or.inl rfl, hf.type, fun v hv => ⟨Or.inr hv, (hf.mem v hv).2⟩, hf.children, hf.files⟩
  have hkeep : Keeps st st' {w | w = r ∨ w ∈ vs} 0 := ⟨hvnode, fun w hw _ => hint w hw, hb.1, hb.2⟩
  have hf' := hpart.keeps hkeep Set.Subset.rfl (hne hf.dir) fun v hv => hne (hf.mem v hv).1
  exact ⟨hf.dir, hf'.type, hf.mem, hf'.children, hf'.files⟩

theorem Filled.fileOf (hf : Filled st T r es vs) (hv : v ∈ vs) : ∃ e ∈ es, FileOf st r v e := by
  obtain ⟨i, hi, rfl⟩ := List.getElem_of_mem hv
  have hlen := hf.files.length_eq
  exact ⟨es.get ⟨i, hlen ▸ hi⟩, List.get_mem .., (List.forall₂_iff_get.1 hf.files).2 i hi (hlen ▸ hi)⟩

theorem childList_at (hv : v ∈ childList st w) :
    ∃ i < (st.internal w).numChildren, (st.internal w).children i = v := by
  obtain ⟨i, hi, rfl⟩ := List.mem_map.1 hv
  exact ⟨i, List.mem_range.1 hi, rfl⟩

namespace Ready

variable (h : Ready st T d r es vs)
include h

theorem d_mem : d ∈ T := h.tree.findChild_mem h.tree.root h.find

theorem d_named : (st.internal d).name = initramfsName := by
  have hfind := h.find
  rw [findChild_childList] at hfind
  simpa using List.find?_some hfind

theorem root_away : Away d r vs st.root := by
  refine ⟨fun heq => ?_, fun heq => ?_, fun hmem => ?_⟩
  · have hmount := h.tree.rootMount.1
    rw [heq] at hmount
    exact h.mounted.1 hmount
  · have hne := (h.hierarchy.mountRoot d h.d_mem h.mounted.1).1
    rw [h.mounted.2] at hne
    exact hne heq.symm
  · obtain ⟨e, -, hfile⟩ := h.filled.fileOf hmem
    have htype := h.directory
    rw [hfile.type] at htype
    cases htype

/-- A walk down from outside of the file system stays outside. -/
theorem away_down (hw : w ∈ T) (ha : Away d r vs w) (hname : Harmless name)
    (hstep : walkComponent st w name = .ok v) : v ∈ T ∧ Away d r vs v := by
  refine ⟨h.tree.walkComponent_mem hw hstep, ?_⟩
  obtain ⟨hwd, hwr, hwvs⟩ := ha
  rw [walkComponent, if_neg hname.2.1, if_neg hname.2.2, h.tree.walkDown_eq hw] at hstep
  have hcross : cross st w = w := if_neg fun hm => hwd (h.only w hw hm)
  rw [hcross] at hstep
  split_ifs at hstep with htype
  cases hfind : findChild st (st.internal w) name with
  | none =>
      rw [hfind] at hstep
      cases hstep
  | some c =>
      rw [hfind] at hstep
      have hc := h.tree.findChild_mem hw hfind
      rw [findChild_childList] at hfind
      have hnamed : (st.internal c).name = name := by simpa using List.find?_some hfind
      obtain ⟨i, hi, hci⟩ := childList_at (List.mem_of_find?_eq_some hfind)
      obtain ⟨hparent, hplain⟩ := h.hierarchy.child w hw i hi
      rw [hci] at hparent hplain
      have hcd : c ≠ d := by
        rintro rfl
        exact hname.1 (hnamed.symm.trans h.d_named)
      have hcv : c = v := by
        rw [← Except.ok.inj hstep]
        exact (if_neg fun hm => hcd (h.only c hc hm)).symm
      subst hcv
      refine ⟨hcd, fun hcr => ?_, fun hmem => ?_⟩
      · have hroot := (h.hierarchy.mountRoot d h.d_mem h.mounted.1).2.2
        rw [h.mounted.2, ← hcr, hplain] at hroot
        cases hroot
      · obtain ⟨e, -, hfile⟩ := h.filled.fileOf hmem
        exact hwr (hparent.symm.trans hfile.parent)

theorem away_resolve (hw : w ∈ T) (ha : Away d r vs w) (hnames : ∀ n ∈ names, Harmless n)
    (hres : resolve st w names = .ok v) : v ∈ T ∧ Away d r vs v := by
  induction names generalizing w with
  | nil =>
      rw [← Except.ok.inj hres]
      exact ⟨hw, ha⟩
  | cons name names ih =>
      rw [resolve_cons] at hres
      cases hstep : walkComponent st w name with
      | error c =>
          rw [hstep] at hres
          cases hres
      | ok u =>
          rw [hstep] at hres
          obtain ⟨hu, hau⟩ := h.away_down hw ha (hnames name List.mem_cons_self) hstep
          exact ih hu hau (fun n hn => hnames n (List.mem_cons_of_mem _ hn)) hres

end Ready

def Outside (path : List UInt8) : Prop := isAbsolute path = true ∧ ∀ n ∈ components path, Harmless n

instance (path : List UInt8) : Decidable (Outside path) := inferInstanceAs (Decidable (_ ∧ _))

theorem Ready.away_path (h : Ready st T d r es vs) (hpath : Outside path) {cwd : ℕ}
    (hres : resolvePath st cwd path = .ok v) : v ∈ T ∧ Away d r vs v := by
  rw [resolvePath, if_neg fun hrel => hrel.1 hpath.1, startVnode, if_pos hpath.1] at hres
  exact h.away_resolve h.tree.root h.root_away hpath.2 hres

namespace Ready

variable (h : Ready st T d r es vs)
include h

theorem grow (hg : Grows st st' T T') (hp : Places st st' T) (hf : Filled st' T' r es vs)
    (honly : ∀ w ∈ T', w ∉ T → (st'.vnodes w).mount = 0) : Ready st' T' d r es vs where
  tree := hg.tree
  hierarchy := hg.mounts.hierarchy h.hierarchy
  directory := by
    rw [hp.root, hp.type _ h.tree.root]
    exact h.directory
  find := by
    rw [hp.root]
    exact hp.findChild h.tree h.tree.root h.find
  mounted := by
    rw [hp.mount d h.d_mem, hp.mountRoot d h.d_mem h.mounted.1]
    exact h.mounted
  only w hw hm := by
    by_cases hin : w ∈ T
    · rw [hp.mount w hin] at hm
      exact h.only w hin hm
    · exact absurd (honly w hw hin) hm
  filled := hf

theorem extend (he : Extends st st' bs) : Ready st' T d r es vs := by
  have hne : ∀ {w}, w ∈ T → w ≠ 0 := fun hw => h.tree.ne_zero hw
  refine h.grow (Grows.extend h.tree he) (Places.extend h.tree he) ?_ fun w hw hin => absurd hw hin
  exact h.filled.keeps (he.keeps h.tree 0) Set.Subset.rfl (hne h.filled.dir)
    fun v hv => hne (h.filled.mem v hv).1

theorem created (hd : dir ∈ T) (ha : Away d r vs dir) (hc : Created st st' dir v name type) :
    Ready st' (insert v T) d r es vs := by
  have hf := hc.frame h.tree hd
  refine h.grow (Grows.created h.tree hd hc) hf.places ?_ fun w hw hin => ?_
  · exact h.filled.keeps (hc.keeps h.tree hd) (Set.subset_insert v T) (Ne.symm ha.2.1)
      fun w hw heq => ha.2.2 (heq ▸ hw)
  · obtain rfl := hw.resolve_right hin
    rw [hf.new.1]
    by_contra hm
    exact ha.1 (h.only dir hd hm)

/-- `vfs_mknod` sets the operations of a vnode outside. -/
theorem setFOps (hv : v ∈ T) (ha : Away d r vs v) {ops : FileOps} (hops : ops ≠ .tmpfs) :
    Ready (st.setVnode v fun e => { e with fOps := some ops }) T d r es vs := by
  have hvnode := State.vnodes_setFOps st v ops
  have hint : ∀ w, (st.setVnode v fun e => { e with fOps := some ops }).internal w = st.internal w := by
    intro w
    rw [State.internal, hvnode]
    rfl
  refine ⟨⟨?_, ?_, ?_, ?_, ?_, fun w hw hm => ?_⟩, ?_⟩
  · exact h.tree.setFOps hv hops
  · exact h.hierarchy.setFOps h.tree v ops
  · rw [hint]
    exact h.directory
  · rw [hint, findChild]
    simp only [hint]
    exact h.find
  · rw [hvnode]
    exact h.mounted
  · rw [hvnode] at hm
    exact h.only w hw hm
  · refine h.filled.same h.tree (fun w hw => State.vnodes_setVnode_of_ne _ _ ?_) (fun w _ => hint w)
      (KeepsBlocks.refl st)
    rintro rfl
    exact hw.elim ha.2.1 ha.2.2

/-- Handles come and go. -/
theorem sameTree (ht : Tree st' T) (hsame : SameTree st st') (hf : Filled st' T r es vs) :
    Ready st' T d r es vs :=
  ⟨h.toSoleMount.sameTree ht hsame, hf⟩

end Ready

def Continues (st st' : State) (d r : ℕ) (es : List Entry) (vs : List ℕ) : Prop :=
  ∃ T', Ready st' T' d r es vs ∧ KeepsBlocks st st'

theorem Extends.keepsBlocks (he : Extends st st' bs) : KeepsBlocks st st' :=
  KeepsBlocks.of_mem (fun _ hb => he.mem_live hb) he.mem

theorem Ready.continues (h : Ready st T d r es vs) (he : Extends st st' bs) : Continues st st' d r es vs :=
  ⟨T, h.extend he, he.keepsBlocks⟩

theorem Ready.vfsMkdir (h : Ready st T d r es vs) (hnul : (0 : UInt8) ∉ path)
    (hparent : ∀ {cwd dir}, resolveParent st cwd path = .ok dir → dir ∈ T → Away d r vs dir) :
    Continues st (vfsMkdir st 0 (some path)).1 d r es vs := by
  rcases vfsMkdir_cases h.tree (Or.inl rfl) hnul with
    ⟨st', x, heq, -, hext⟩ | ⟨st', dir, v, heq, hdir, hreach, -, hc⟩
  · rw [heq]
    exact h.continues hext
  · rw [heq]
    have ha := hparent hreach.parent hdir
    exact ⟨_, h.created hdir ha hc, (hc.keeps h.tree hdir).blocks⟩

/-- A walk without `..` does not fail behind one. -/
theorem not_behind (hnames : ∀ n ∈ names, n ≠ dotDotName) : ¬ FailsBehindUp st w names := by
  rintro ⟨p, q, v, u, c, rfl, -⟩
  exact hnames dotDotName (List.mem_append_right p List.mem_cons_self) rfl

theorem lookupPath_leaves (hnul : (0 : UInt8) ∉ path) (hpath : Outside path)
    (hmissing : (lookupPath st 0 path).2.1 ≠ 0) : (lookupPath st 0 path).2.2 = 0 := by
  by_cases hcopy : CopyOk st path
  swap
  · rw [lookupPath_no_copy hcopy]
  rw [lookupPath_spec hnul hcopy] at hmissing ⊢
  have habs : ¬ (¬ isAbsolute path = true ∧ 0 = 0) := fun hrel => hrel.1 hpath.1
  rw [resolvePath, if_neg habs] at hmissing
  change leftoverPath st 0 path = 0
  rw [leftoverPath, if_neg habs]
  cases hres : resolve st (startVnode st 0 path) (components path) with
  | error c => exact leftover_of_not_behind (not_behind fun n hn => (hpath.2 n hn).2.2) hres
  | ok u =>
      rw [hres] at hmissing
      exact absurd rfl hmissing

/-- What an open leads to: handles have been made behind `st₁`, and a new one is on a vnode outside. -/
def OpensOutside (st st' : State) (x : ℤ) (file d r : ℕ) (es : List Entry) (vs : List ℕ) : Prop :=
  ∃ st₁ T₁ bs, Ready st₁ T₁ d r es vs ∧ KeepsBlocks st st₁ ∧ Opens st₁ st' bs ∧
    (x = 0 → (st'.files file).vnode ∈ T₁ ∧ Away d r vs (st'.files file).vnode ∧ Extends.Fresh st₁ file ∧
      (file, sizeofFile) ∈ st'.heap.live)

theorem Ready.opensVnode (h : Ready st₁ T d r es vs) (hkeep : KeepsBlocks st st₁) (hv : v ∈ T)
    (ha : Away d r vs v) (heq : vfsOpenVnode st₁ flags v = some (st', x, file)) :
    OpensOutside st st' x file d r es vs := by
  obtain ⟨ops, -, ⟨st₂, y, bs, heq₂, hy, hopens, -⟩ | ⟨st₂, f, bs, heq₂, hopens, hfile, -⟩⟩ :=
    vfsOpenVnode_cases h.tree hv flags
  all_goals
    rw [heq₂] at heq
    obtain ⟨rfl, rfl, rfl⟩ := by simpa only [Option.some.injEq, Prod.mk.injEq] using heq
  · exact ⟨st₁, T, bs, h, hkeep, hopens, fun h0 => absurd h0 hy.ne⟩
  · refine ⟨st₁, T, _, h, hkeep, hopens, fun _ => ?_⟩
    rw [hfile]
    refine ⟨hv, ha, hopens.extend.fresh (List.mem_cons_self ..), ?_⟩
    rw [hopens.extend.live]
    exact List.mem_cons_self ..

theorem Ready.fails (h : Ready st T d r es vs) {y : ℤ} (hy : y < 0) (hext : Extends st st₁ [])
    (heq : (some (st₁, y, 0) : Option (State × ℤ × ℕ)) = some (st', x, file)) :
    OpensOutside st st' x file d r es vs := by
  obtain ⟨rfl, rfl, rfl⟩ := by simpa only [Option.some.injEq, Prod.mk.injEq] using heq
  exact ⟨st₁, T, [], h.extend hext, hext.keepsBlocks,
    ⟨Extends.refl hext.ok, fun _ hb => absurd hb List.not_mem_nil, rfl, rfl, rfl, rfl⟩,
    fun h0 => absurd h0 hy.ne⟩

theorem Ready.vfsOpen (h : Ready st T d r es vs) (hnul : (0 : UInt8) ∉ path) (hpath : Outside path)
    (hparent : ∀ {cwd dir}, resolveParent st cwd path = .ok dir → dir ∈ T → Away d r vs dir)
    (hcreat : oCreat flags) (heq : vfsOpen st 0 (some path) flags target = some (st', x, file)) :
    OpensOutside st st' x file d r es vs := by
  have hcwd : (0 : ℕ) = 0 ∨ (0 : ℕ) ∈ T := Or.inl rfl
  obtain ⟨hext, -⟩ := afterFind_extends h.tree hnul 0
  rcases found_or_missing st 0 path with ⟨v, hfind⟩ | hmissing
  · rw [vfsOpen_found hfind] at heq
    obtain ⟨hv, ha⟩ := h.away_path hpath ((lookupFinds_iff hnul).1 hfind).2
    exact (h.extend hext).opensVnode hext.keepsBlocks hv ha heq
  by_cases hasks : ∃ dir ops, Asks st 0 path dir ops
  swap
  · obtain ⟨st₁, y, heq₁, hy, hext₁, -⟩ :=
      vfsOpen_unasked h.tree hnul hmissing (fun dir ops ha => hasks ⟨dir, ops, ha⟩) hcreat target
    rw [heq₁] at heq
    exact h.fails hy hext₁ heq
  obtain ⟨dir, ops, hasks⟩ := hasks
  by_cases hacc : Accepts (whenAsked st 0 path) dir (newName path)
  · obtain ⟨st₁, v, hopen, hdir, -, hc, -⟩ := hasks.accepted h.tree hcwd hnul hacc hcreat target
    rw [hopen] at heq
    have haway := hparent (hasks.dir_mem h.tree hcwd hnul).2 hdir
    have hfresh := (hc.frame h.tree hdir).fresh
    have hnew : Away d r vs v := by
      refine ⟨fun hvd => hfresh (hvd ▸ h.d_mem), fun hvr => hfresh (hvr ▸ h.filled.dir), fun hmem => ?_⟩
      exact hfresh (h.filled.mem v hmem).1
    exact (h.created hdir haway hc).opensVnode (hc.keeps h.tree hdir).blocks (Set.mem_insert v T) hnew heq
  · rw [Refused.runs ⟨hasks, hacc⟩ h.tree hcwd hnul hcreat, if_pos] at heq
    · cases heq
    · rw [staleVnode, refusedVnode, lookupPath_leaves hnul hpath hmissing]
      split_ifs <;> rfl

/-- `vfs_mknod` on a path outside. -/
theorem Ready.vfsMknod (h : Ready st T d r es vs) (hnul : (0 : UInt8) ∉ path) (hpath : Outside path)
    (hparent : ∀ {cwd dir}, resolveParent st cwd path = .ok dir → dir ∈ T → Away d r vs dir)
    {ops : FileOps} (hops : ops ≠ .tmpfs)
    (heq : vfsMknod st 0 (some path) (some ops) = some (st', x)) : Continues st st' d r es vs := by
  rw [Vfs.vfsMknod] at heq
  obtain ⟨⟨st₂, y, dev⟩, hopen, heq⟩ := Option.bind_eq_some_iff.1 heq
  obtain ⟨st₁, T₁, bs, h₁, hkeep, hopens, hok⟩ := h.vfsOpen hnul hpath hparent (by decide) hopen
  have h₂ := h₁.extend hopens.extend
  have hkeep₂ := hkeep.trans hopens.extend.keepsBlocks
  by_cases hy : y = 0
  swap
  · simp only [if_pos hy] at heq
    obtain ⟨rfl, -⟩ := Prod.mk.inj (Option.some.inj heq)
    exact ⟨T₁, h₂, hkeep₂⟩
  obtain ⟨hv, ha, hfresh, hlive⟩ := hok hy
  simp only [if_neg (not_not.2 hy)] at heq
  have h₃ := h₂.setFOps hv ha hops
  set st₃ := st₂.setVnode (st₂.files dev).vnode fun e => { e with fOps := some ops } with hst₃
  have hclose := congrArg Prod.fst (Option.some.inj heq)
  rcases vfsClose_cases st₃ dev with ⟨y, heq₃, -⟩ | heq₃ | heq₃ <;> rw [heq₃] at hclose <;> subst hclose
  · exact ⟨T₁, h₃, hkeep₂⟩
  · have ht : Tree (st₃.setFile dev fun _ => ⟨0, 0, none, 0⟩) T₁ := h₃.tree.setFile ..
    refine ⟨T₁, h₃.sameTree ht ⟨rfl, rfl, rfl, rfl⟩ ?_, hkeep₂⟩
    exact h₃.filled.same h₃.tree (fun _ _ => rfl) (fun _ _ => rfl) (KeepsBlocks.refl st₃)
  · have hfreed : KeepsBlocks st₁ (st₃.free dev) := by
      refine KeepsBlocks.of_mem (fun b hb => ?_) hopens.extend.mem
      exact Heap.mem_free.2 ⟨hopens.extend.mem_live hb, hfresh b hb⟩
    refine ⟨T₁, h₃.sameTree (h₃.tree.free_handle hlive) ⟨rfl, rfl, rfl, rfl⟩ ?_, hkeep.trans hfreed⟩
    have hvnode : ∀ w, w = r ∨ w ∈ vs → (st₃.free dev).vnodes w = st₁.vnodes w := by
      intro w hw
      rw [← hopens.same.vnodes]
      have hne : w ≠ (st₂.files dev).vnode := by
        intro heqw
        rw [heqw] at hw
        exact hw.elim ha.2.1 ha.2.2
      have hset : st₃.vnodes w = st₂.vnodes w := State.vnodes_setVnode_of_ne _ _ hne
      exact hset
    refine h₁.filled.same h₁.tree hvnode (fun w hw => ?_) hfreed
    rw [State.internal, hvnode w hw]
    exact congrFun hopens.same.nodes _

end OscKernel.Vfs
