import OscKernel.MountCover

/-!
# The law of mounts

After a mount on a path, the path leads to the new root and everything below it is gone until it is made
there, while walks that do not come to the mount point are as before. No later creation by an absolute
path reaches what the mount covers.
-/

namespace OscKernel.Vfs

open Relation

variable {st st' : State} {s s₁ s' : Sys} {T : Set ℕ} {d r n t cwd : ℕ} {x : ℤ}
  {path q : List UInt8} {flags : BitVec 32} {op : SysOp}

def Gains (st st' : State) (n : ℕ) : Prop :=
  (n, sizeofNode) ∈ st.heap.live ∧ (st'.nodes n).numChildren ≠ (st.nodes n).numChildren

theorem Gains.of_eq (h : Gains st st' n) (heq : st'.nodes n = st.nodes n) : False := h.2 (by rw [heq])

theorem vfsOpenVnode_nodes {v file : ℕ} (heq : vfsOpenVnode st flags v = some (st', x, file)) :
    st'.nodes = st.nodes := by
  rw [vfsOpenVnode] at heq
  rcases halloc : st.alloc sizeofFile with ⟨st₁, f⟩
  have hnodes : st₁.nodes = st.nodes := congrArg (fun p => p.1.nodes) halloc.symm
  simp only [halloc] at heq
  split_ifs at heq with h0
  cases hops : (st₁.vnodes v).fOps with
  | none =>
      rw [hops] at heq
      cases heq
  | some ops =>
      rw [hops] at heq
      have hopen : (ops.open st₁ v f).1.nodes = st₁.nodes := by
        cases ops <;>
          simp only [FileOps.open, initramfsOpen, tmpfsOpen, devUartOpen, devFramebufferOpen, devOpen]
          <;> split_ifs <;> rfl
      dsimp only at heq
      split_ifs at heq with hr
      · rw [← (Prod.mk.inj (Option.some.inj heq)).1]
        exact hopen.trans hnodes
      · rw [← (Prod.mk.inj (Option.some.inj heq)).1]
        exact hopen.trans hnodes

theorem Created.gains {dir v : ℕ} {name : List UInt8} {type : NodeType}
    (hc : Created st st' dir v name type) (hg : Gains st st' n) : (st.vnodes dir).internal = n := by
  obtain ⟨-, st₁, k, data, -, rfl, hext, -⟩ := hc
  by_contra hne
  refine hg.of_eq ?_
  exact (Function.update_of_ne (fun heq => hne heq.symm) _ _).trans (hext.node _ hg.1)

/-- An open gives a child only to the directory of its path. -/
theorem vfsOpen_gains (h : Tree st T) (hcwd : cwd = 0 ∨ cwd ∈ T) (hnul : (0 : UInt8) ∉ path)
    {target file : ℕ} (heq : vfsOpen st cwd (some path) flags target = some (st', x, file))
    (hg : Gains st st' n) :
    ∃ dir ∈ T, resolveParent st (openCwd st cwd path) path = .ok dir ∧ newName path ≠ [] ∧
      (st.vnodes dir).internal = n := by
  obtain ⟨-, hsame⟩ := afterFind_extends h hnul cwd
  have hkept : ∀ {st₁ : State}, st₁.nodes = st.nodes → st'.nodes = st₁.nodes → False :=
    fun h₁ h₂ => hg.of_eq (by rw [h₂, h₁])
  rcases found_or_missing st cwd path with ⟨v, hfind⟩ | hmissing
  · rw [vfsOpen_found hfind] at heq
    exact (hkept hsame.nodes (vfsOpenVnode_nodes heq)).elim
  by_cases hcreat : oCreat flags
  swap
  · obtain ⟨st₁, r, heq₁, -, hsame₁⟩ := vfsOpen_plain h hnul hmissing hcreat target
    rw [heq₁] at heq
    exact (hkept hsame₁.nodes (by rw [(Prod.mk.inj (Option.some.inj heq)).1])).elim
  by_cases hasks : ∃ dir ops, Asks st cwd path dir ops
  swap
  · obtain ⟨st₁, r, heq₁, -, -, hsame₁⟩ :=
      vfsOpen_unasked h hnul hmissing (fun dir ops ha => hasks ⟨dir, ops, ha⟩) hcreat target
    rw [heq₁] at heq
    exact (hkept hsame₁.nodes (by rw [(Prod.mk.inj (Option.some.inj heq)).1])).elim
  obtain ⟨dir, ops, ha⟩ := hasks
  by_cases hacc : Accepts (whenAsked st cwd path) dir (newName path)
  · obtain ⟨st₁, v, hopen, hdir, hcan, hc, -⟩ := ha.accepted h hcwd hnul hacc hcreat target
    rw [hopen] at heq
    refine ⟨dir, hdir, (ha.dir_mem h hcwd hnul).2, hcan.named, hc.gains ⟨hg.1, ?_⟩⟩
    rw [← vfsOpenVnode_nodes heq]
    exact hg.2
  · have hr : Refused st cwd path dir ops := ⟨ha, hacc⟩
    rw [hr.runs h hcwd hnul hcreat] at heq
    split_ifs at heq with h0
    exact (hkept (hr.keeps h hnul).2.nodes (vfsOpenVnode_nodes heq)).elim

def SysOp.Makes (op : SysOp) (path : UserPath) : Prop :=
  ∃ t, op = .mkdir t path ∨ (∃ flags, op = .open t path flags) ∨ ∃ ops, op = .mknod t path ops

theorem vfsClose_nodes (st : State) (file : ℕ) : (vfsClose st file).1.nodes = st.nodes := by
  rcases vfsClose_cases st file with ⟨r, heq, -⟩ | heq | heq <;> rw [heq] <;> rfl

theorem makes_gains (hinv : s.Inv T) {path : UserPath} (hop : op.Makes path)
    (hstep : s.step op = some (s', x)) (hg : Gains s.st s'.st n) :
    ∃ cwd, ∃ dir ∈ T, resolveParent s.st cwd path.text = .ok dir ∧ newName path.text ≠ [] ∧
      (s.st.vnodes dir).internal = n := by
  obtain ⟨t, rfl | ⟨flags, rfl⟩ | ⟨ops, rfl⟩⟩ := hop
  · obtain ⟨rfl, -⟩ := Prod.mk.inj (Option.some.inj hstep)
    change Gains s.st (sysMkdir s.st (s.tasks t) path).1 n at hg
    rw [sysMkdir] at hg
    split_ifs at hg with hmissing
    · exact (hg.of_eq rfl).elim
    rcases vfsMkdir_cases hinv.tree (hinv.cwd t) path.nul with
      ⟨st', r, heq, -, hext⟩ | ⟨st', dir, v, heq, hdir, hreach, hcan, hc⟩
    · simp only [heq] at hg
      exact (hg.of_eq (hext.node _ hg.1)).elim
    · simp only [heq] at hg
      exact ⟨_, dir, hdir, hreach.parent, hcan.named, hc.gains hg⟩
  · obtain ⟨⟨st', task', x'⟩, hopen, hstep⟩ := Option.bind_eq_some_iff.1 hstep
    obtain ⟨rfl, -⟩ := Prod.mk.inj (Option.some.inj hstep)
    change Gains s.st st' n at hg
    rw [sysOpen] at hopen
    split_ifs at hopen with hmissing
    · rw [← (Prod.mk.inj (Option.some.inj hopen)).1] at hg
      exact (hg.of_eq rfl).elim
    cases hfirst : (s.tasks t).firstEmpty with
    | none =>
        rw [hfirst] at hopen
        rw [← (Prod.mk.inj (Option.some.inj hopen)).1] at hg
        exact (hg.of_eq rfl).elim
    | some i =>
        rw [hfirst] at hopen
        obtain ⟨⟨st₁, ret, file⟩, hvfs, hopen⟩ := Option.bind_eq_some_iff.1 hopen
        have hst : st₁ = st' := by
          dsimp only at hopen
          split_ifs at hopen <;> exact (Prod.mk.inj (Option.some.inj hopen)).1
        subst hst
        exact ⟨_, vfsOpen_gains hinv.tree (hinv.cwd t) path.nul hvfs hg⟩
  · obtain ⟨⟨st', ret⟩, hmknod, hstep⟩ := Option.bind_eq_some_iff.1 hstep
    obtain ⟨rfl, -⟩ := Prod.mk.inj (Option.some.inj hstep)
    change Gains s.st st' n at hg
    rw [vfsMknod] at hmknod
    obtain ⟨⟨st₁, ret₁, dev⟩, hvfs, hmknod⟩ := Option.bind_eq_some_iff.1 hmknod
    have hnodes : st'.nodes = st₁.nodes := by
      dsimp only at hmknod
      split_ifs at hmknod
      · rw [← (Prod.mk.inj (Option.some.inj hmknod)).1]
      · have hst := congrArg (fun p => p.1.nodes) (Option.some.inj hmknod)
        exact hst.symm.trans (vfsClose_nodes _ _)
    refine ⟨_, vfsOpen_gains hinv.tree (hinv.cwd t) path.nul hvfs ⟨hg.1, ?_⟩⟩
    rw [← hnodes]
    exact hg.2

/-- The directory of an absolute path. -/
theorem absolute_parent (habs : isAbsolute path) (hname : newName path ≠ [])
    {dir : ℕ} (hparent : resolveParent st cwd path = .ok dir) :
    ∃ i, path = path.take i ++ slash :: newName path ∧ slash ∉ newName path ∧
      resolve st st.root (components (path.take i)) = .ok dir := by
  rcases hlast : lastSlash path path.length with _ | i
  · refine absurd ?_ (newName_of_none hlast).2
    rw [isAbsolute, decide_eq_true_eq] at habs
    exact List.mem_of_mem_head? habs
  obtain ⟨hsplit, hmem⟩ := path_split hlast
  refine ⟨i, hsplit, hmem, ?_⟩
  rw [resolveParent, parentPath, hlast] at hparent
  cases i with
  | zero =>
      rw [← hparent]
      rfl
  | succ i =>
      have habs' : isAbsolute (path.take (i + 1)) := by
        rw [← habs]
        cases path <;> rfl
      rw [← hparent]
      change _ = resolvePath st cwd (path.take (i + 1))
      rw [resolvePath, if_neg fun h => h.1 habs', startVnode, if_pos habs']

/-- What a lookup returns when there is memory for its copy of the path. -/
def Gives (st : State) (cwd : ℕ) (path : List UInt8) (res : Except ℤ ℕ) : Prop :=
  CopyOk st path → (lookupPath st cwd path).2.1 = code res ∧
    ∀ v, res = .ok v → (lookupPath st cwd path).2.2 = v

theorem gives_of_resolvePath (hnul : (0 : UInt8) ∉ path) {res : Except ℤ ℕ}
    (h : resolvePath st cwd path = res) : Gives st cwd path res := by
  intro hcopy
  rw [lookupPath_spec hnul hcopy, h]
  refine ⟨rfl, ?_⟩
  rintro v rfl
  exact leftoverPath_of_ok h

structure Plain (name : List UInt8) : Prop where
  nonempty : name ≠ []
  slash : slash ∉ name
  nul : (0 : UInt8) ∉ name
  notDot : name ≠ dotName
  notDotDot : name ≠ dotDotName

theorem Plain.components (h : Plain q) : components q = [q] :=
  CStrings.tokens_of_not_mem h.slash h.nonempty

def visitsPath (st : State) (cwd : ℕ) (path : List UInt8) : List ℕ :=
  if ¬ isAbsolute path ∧ cwd = 0 then [] else visits st (startVnode st cwd path) (components path)

def Direct (st : State) (path : List UInt8) (d : ℕ) : Prop :=
  ∀ n, LooksUp st st.root (components path) d n → n = dotName ∨ n = dotDotName

/-- What a mount of a file system with the root `r` on the vnode `d` of `path` does, from `s` to `s₁` and
in every state later than `s₁`. -/
structure Covers (s s₁ : Sys) (path : List UInt8) (d r : ℕ) : Prop where
  root : Direct s.st path d → ∀ cwd, Gives s₁.st cwd path (.ok r)
  empty : Direct s.st path d → ∀ cwd n, Plain n →
    Gives s₁.st cwd (path ++ slash :: n) (.error enoent)
  parent : Direct s.st path d → ∀ cwd, CopyOk s.st (path ++ slash :: dotDotName) →
    CopyOk s₁.st (path ++ slash :: dotDotName) →
    SameResult (lookupPath s₁.st cwd (path ++ slash :: dotDotName))
      (lookupPath s.st cwd (path ++ slash :: dotDotName))
  busy : Direct s.st path d → ∀ cwd name, findFilesystem s₁.st name ≠ none → CopyOk s₁.st path →
    (vfsMount s₁.st cwd (some path) (some name)).2 = ebusy
  others : ∀ t q, (0 : UInt8) ∉ q → d ∉ visitsPath s.st (s.tasks t).cwd q → CopyOk s.st q →
    CopyOk s₁.st q →
    SameResult (lookupPath s₁.st (s.tasks t).cwd q) (lookupPath s.st (s.tasks t).cwd q)
  later : ∀ s', ReflTransGen Sys.Step s₁ s' → ∀ cwd n, Plain n →
    resolvePath s'.st cwd path = .ok r → findChild s'.st (s'.st.internal r) n = none →
    Gives s'.st cwd (path ++ slash :: n) (.error enoent)
  hidden : ∀ s', ReflTransGen Sys.Step s₁ s' → ∀ op p s'' x, SysOp.Makes op p → isAbsolute p.text →
    s'.step op = some (s'', x) → ∀ n, Gains s'.st s''.st n → n ≠ (s'.st.vnodes d).internal
  inside : ∀ s', ReflTransGen Sys.Step s₁ s' → ∀ op p s'' x, SysOp.Makes op p → isAbsolute p.text →
    s'.step op = some (s'', x) → ∀ n, Gains s'.st s''.st n → ∀ q, p.text = path ++ slash :: q →
    resolvePath s'.st 0 path = .ok r → ¬ LooksUp s'.st r (components q).dropLast r dotDotName →
    ∃ dir, Inside s'.st r dir ∧ (s'.st.vnodes dir).internal = n

theorem TmpfsFirst.find (h : TmpfsFirst st) :
    ∃ f, findFilesystem st tmpfsName = some f ∧ (st.fsTable f).setupMount = some .tmpfs := by
  obtain ⟨f, rest, hfs, htable⟩ := h
  refine ⟨f, ?_, by rw [htable]⟩
  rw [findFilesystem, hfs, List.find?_cons, htable]
  simp

theorem TmpfsFirst.ready (h : TmpfsFirst st) (path : List UInt8) : RootClear st path tmpfsName := by
  obtain ⟨f, hfind, hops⟩ := h.find
  intro g hg hinit
  rw [Option.mem_def, hfind] at hg
  rw [← Option.some.inj hg, hops] at hinit
  cases hinit

theorem resolvePath_absolute (habs : isAbsolute path) :
    resolvePath st cwd path = resolve st st.root (components path) := by
  rw [resolvePath, if_neg fun h => h.1 habs, startVnode, if_pos habs]

/-- A successful mount of the memory file system. -/
theorem sysMount_covered (hw : s.Whole T) {target filesystem : UserPath}
    (hname : filesystem.text = tmpfsName)
    (hmount : s.step (.mount t target filesystem) = some (s₁, 0)) :
    ∃ d r, resolvePath s.st (s.tasks t).cwd target.text = .ok d ∧ Covered s.st s₁.st T d r ∧
      s₁.Whole (insert r T) ∧ s₁.tasks = s.tasks := by
  obtain ⟨hst, hcode⟩ := Prod.mk.inj (Option.some.inj hmount)
  change Sys.mk (sysMount s.st (s.tasks t) target filesystem).1 s.tasks = s₁ at hst
  change (sysMount s.st (s.tasks t) target filesystem).2 = 0 at hcode
  by_cases hmissing : target.missing ∨ filesystem.missing
  · rw [sysMount, if_pos hmissing] at hcode
    cases hcode
  rw [sysMount, if_neg hmissing, hname] at hst hcode
  have h := hw.inv.tree
  rcases vfsMount_cases h (hw.inv.cwd t) target.nul (hw.tmpfs.ready _) with
    ⟨st', r, heq, hr, -⟩ | ⟨st', d, m, r, n, fs, ops, heq, hfind, hops, hres, hfree, hplain, hm, hmounted⟩
  · simp only [heq, if_pos hr] at hcode
    exact absurd hcode hr.ne
  simp only [heq] at hst
  obtain ⟨f, hfind', hops'⟩ := hw.tmpfs.find
  have htmpfs : ops = .tmpfs := by
    rw [hfind'] at hfind
    obtain rfl := Option.some.inj hfind
    rw [hops'] at hops
    exact (Option.some.inj hops).symm
  subst htmpfs
  subst hst
  have hd := h.resolvePath_mem (hw.inv.cwd t) hres
  have hroot : d ≠ s.st.root := by
    rintro rfl
    rw [h.rootMount.2] at hplain
    cases hplain
  refine ⟨d, r, hres, hmounted.covered h hd hfree hplain hm, ?_, rfl⟩
  exact hw.next (hw.inv.next (hmounted.grows h hd hroot hfree hplain))

/-- The mount and its root stay. -/
theorem Covered.later {T' : Set ℕ} (hc : Covered s.st s₁.st T d r) (hn : Sys.Next s₁ s' (insert r T) T') :
    Hierarchy.On s'.st T' d r ∧ r ∈ T' ∧ (s'.st.internal r).type = .directory := by
  have hd : d ∈ insert r T := Set.mem_insert_of_mem r hc.mem
  have hr : r ∈ insert r T := Set.mem_insert r T
  obtain ⟨hmount, hroot⟩ := hn.mounts.mount d hd hc.mounted.1
  refine ⟨⟨hn.subset hd, ?_, ?_, ?_⟩, hn.subset hr, hn.mounts.directory r hr hc.empty.2⟩
  · rw [hmount]
    exact hc.mounted.1
  · rw [hmount, hroot, hc.mounted.2]
  · rw [(hn.mounts.parent r hr).1, hc.new.2.1]

/-- A walk into a directory, or into the one that covers it, does not find a name that it does not have. -/
theorem resolvePath_missing (h : Tree st T) {w : ℕ} (hw : w ∈ T) (hcross : Vfs.cross st w = r)
    (htype : (st.internal r).type = .directory) {name : List UInt8} (hname : Plain name)
    (hfind : findChild st (st.internal r) name = none) :
    resolvePath st w name = .error enoent := by
  have hhead : name.head? ≠ some slash := fun heq => hname.slash (List.mem_of_mem_head? heq)
  have hwalk : walkComponent st w name = .error enoent := by
    rw [walkComponent, if_neg hname.notDot, if_neg hname.notDotDot, h.walkDown_eq hw, hcross,
      if_neg (not_not.2 htype), hfind]
  have hrel : ¬ isAbsolute name := by rwa [isAbsolute, decide_eq_true_eq]
  rw [resolvePath, if_neg fun h0 => h.ne_zero hw h0.2, startVnode, if_neg hrel, hname.components,
    resolve_cons, hwalk]
  rfl

/-- A path that goes on with such a name. -/
theorem gives_missing (h : Tree st T) {w : ℕ} (hw : w ∈ T) (hcross : Vfs.cross st w = r)
    (htype : (st.internal r).type = .directory) {name : List UInt8} (hname : Plain name)
    (hnul : (0 : UInt8) ∉ path) (hpath : path ≠ []) (hres : resolvePath st cwd path = .ok w)
    (hfind : findChild st (st.internal r) name = none) :
    Gives st cwd (path ++ slash :: name) (.error enoent) := by
  refine gives_of_resolvePath ?_ ?_
  · simp only [List.mem_append, List.mem_cons, not_or]
    exact ⟨hnul, by decide, hname.nul⟩
  have hhead : name.head? ≠ some slash := fun heq => hname.slash (List.mem_of_mem_head? heq)
  rw [resolvePath_append hpath hhead fun v hv => by
    rw [hres] at hv
    exact Except.ok.inj hv ▸ h.ne_zero hw, hres]
  exact resolvePath_missing h hw hcross htype hname hfind

/-- A name that the root of a mount does not have. -/
theorem gives_enoent {T : Set ℕ} (hw : s.Whole T) (hon : Hierarchy.On s.st T d r) (hr : r ∈ T)
    (htype : (s.st.internal r).type = .directory) {name : List UInt8} (hname : Plain name)
    (hnul : (0 : UInt8) ∉ path) (hpath : path ≠ []) (hres : resolvePath s.st cwd path = .ok r)
    (hfind : findChild s.st (s.st.internal r) name = none) :
    Gives s.st cwd (path ++ slash :: name) (.error enoent) := by
  have hcross : cross s.st r = r := if_neg (not_not.2 (hon.root_mount hw.hierarchy).2.1)
  exact gives_missing hw.inv.tree hr hcross htype hname hnul hpath hres hfind

/-- The directory of a path that extends another. -/
theorem components_extend {first name : List UInt8} (hpath : path ++ slash :: q = first ++ slash :: name)
    (hslash : slash ∉ name) (hname : name ≠ []) :
    components first = components path ++ (components q).dropLast := by
  have hsingle : components name = [name] := CStrings.tokens_of_not_mem hslash hname
  have hq : ∃ names, components q = names ++ [name] := by
    rcases List.append_eq_append_iff.1 hpath with ⟨a, -, ha⟩ | ⟨a, -, ha⟩
    · cases a with
      | nil => exact ⟨[], by rw [(List.cons.inj ha).2, hsingle]; rfl⟩
      | cons b a =>
          have hqa : q = a ++ slash :: name := (List.cons.inj ha).2
          exact ⟨components a, by rw [hqa, components_append, hsingle]⟩
    · cases a with
      | nil => exact ⟨[], by rw [← (List.cons.inj ha).2, hsingle]; rfl⟩
      | cons b a =>
          have hmem : slash ∈ name := by
            rw [(List.cons.inj ha).2]
            simp
          exact absurd hmem hslash
  obtain ⟨names, hnames⟩ := hq
  have hall : components path ++ components q = components first ++ [name] := by
    rw [← components_append, ← hsingle, ← components_append, ← hpath]
  rw [hnames, ← List.append_assoc] at hall
  rw [hnames, List.dropLast_concat]
  exact (List.append_cancel_right hall).symm

/-- The vnode that a creation by an absolute path attaches to can be seen from the root. -/
theorem makes_seen {T : Set ℕ} (hw : s.Whole T) (hon : Hierarchy.On s.st T d r) {p : UserPath}
    (hop : op.Makes p) (habs : isAbsolute p.text) (hstep : s.step op = some (s', x))
    (hg : Gains s.st s'.st n) :
    ∃ dir ∈ T, (s.st.vnodes dir).internal = n ∧ ¬ Shut s.st d r dir ∧
      ∃ first name, p.text = first ++ slash :: name ∧ slash ∉ name ∧ name ≠ [] ∧
        resolve s.st s.st.root (components first) = .ok dir := by
  obtain ⟨cwd, dir, hdir, hparent, hname, hint⟩ := makes_gains hw.inv hop hstep hg
  obtain ⟨i, hsplit, hslash, hres⟩ := absolute_parent habs hname hparent
  have h := hw.inv.tree
  exact ⟨dir, hdir, hint, hw.hierarchy.resolve_not_shut h hon h.root (hon.not_shut_top h) hres,
    _, _, hsplit, hslash, hname, hres⟩

theorem sameResult_of_resolvePath (hnul : (0 : UInt8) ∉ path) (hcopy : CopyOk st path)
    (hcopy' : CopyOk st' path) (hsame : resolvePath st' cwd path = resolvePath st cwd path) :
    SameResult (lookupPath st' cwd path) (lookupPath st cwd path) := by
  rw [lookupPath_spec hnul hcopy, lookupPath_spec hnul hcopy', hsame]
  refine ⟨rfl, fun h0 => ?_⟩
  obtain ⟨v, hv⟩ := resolvePath_of_code h0
  change leftoverPath st' cwd path = leftoverPath st cwd path
  rw [leftoverPath_of_ok hv, leftoverPath_of_ok (hsame.trans hv)]

theorem resolvePath_up (hpath : path ≠ []) {v : ℕ} (hv : v ≠ 0) (hres : resolvePath st cwd path = .ok v) :
    resolvePath st cwd (path ++ slash :: dotDotName) = walkUp st v := by
  have hhead : dotDotName.head? ≠ some slash := by decide
  rw [resolvePath_append hpath hhead fun w hw => by
    rw [hres] at hw
    exact Except.ok.inj hw ▸ hv, hres]
  change resolvePath st v dotDotName = _
  have hcomp : components dotDotName = [dotDotName] := rfl
  rw [resolvePath, if_neg fun h0 => hv h0.2, startVnode, if_neg (by decide), hcomp, resolve_cons]
  change (walkUp st v).bind _ = _
  cases walkUp st v <;> rfl

theorem vfsMount_busy {T : Set ℕ} {v : ℕ} (h : Tree st T) (hv : v ∈ T)
    (hbusy : (st.vnodes v).parentIsMount = true) (hnul : (0 : UInt8) ∉ path) {name : List UInt8}
    (hfind : findFilesystem st name ≠ none) (hcopy : CopyOk st path)
    (hres : resolvePath st cwd path = .ok v) :
    (vfsMount st cwd (some path) (some name)).2 = ebusy := by
  obtain ⟨fs, hfs⟩ := Option.ne_none_iff_exists'.1 hfind
  rw [findFilesystem] at hfs
  have hvops : ¬ ((afterLookup st path).vnodes v).vOps = none := h.vOps v hv
  have hmarked : ((afterLookup st path).vnodes v).mount ≠ 0 ∨
      ((afterLookup st path).vnodes v).parentIsMount = true := Or.inr hbusy
  simp only [vfsMount, hfs, lookupPath_spec hnul hcopy, hres, code, leftoverPath_of_ok hres,
    if_neg (not_not.2 rfl), if_neg hvops, if_pos hmarked]

/-- A successful mount of the memory file system on an absolute path covers the vnode of the path. -/
theorem mount_covers (hs : s.Reachable) {target filesystem : UserPath} (habs : isAbsolute target.text)
    (hname : filesystem.text = tmpfsName)
    (hmount : s.step (.mount t target filesystem) = some (s₁, 0)) :
    ∃ d r, resolvePath s.st (s.tasks t).cwd target.text = .ok d ∧ Covers s s₁ target.text d r := by
  obtain ⟨T, hw⟩ := hs.whole
  obtain ⟨d, r, hres, hc, hw₁, htasks⟩ := sysMount_covered hw hname hmount
  have h := hw.inv.tree
  have hh := hw.hierarchy
  have h₁ := hw₁.inv.tree
  have hsub : T ⊆ insert r T := Set.subset_insert r T
  have hr : r ∈ insert r T := Set.mem_insert r T
  have hpath : target.text ≠ [] := by
    intro hnil
    rw [hnil] at habs
    cases habs
  have hon : Hierarchy.On s₁.st (insert r T) d r := (hc.later hw₁.inv.same).1
  have hresolve : ∀ cwd, resolvePath s.st cwd target.text = .ok d := by
    intro cwd
    rw [resolvePath_absolute habs] at hres ⊢
    exact hres
  have hnew : Direct s.st target.text d → ∀ cwd, resolvePath s₁.st cwd target.text = .ok r := by
    intro hdirect cwd
    have hlift : lift d r s.st.root = s₁.st.root := by
      rw [lift_of_ne (hc.ne_root h).symm, hc.root]
    have hshut : ¬ Shut s₁.st d r (lift d r s.st.root) := by
      rw [hlift]
      exact hon.not_shut_top h₁
    rw [resolvePath_absolute habs] at hres
    have hl := hc.resolve_lift h hh h₁ hw₁.hierarchy hsub hr h.root hshut hdirect hres
    rw [hlift] at hl
    rw [resolvePath_absolute habs, hl, lift, if_pos rfl]
  have hup0 : (0 : UInt8) ∉ target.text ++ slash :: dotDotName := by
    simp only [List.mem_append, List.mem_cons, not_or]
    exact ⟨target.nul, by decide, by decide⟩
  refine ⟨d, r, hres, ?_, ?_, ?_, ?_, ?_, ?_, ?_, ?_⟩
  · exact fun hdirect cwd => gives_of_resolvePath target.nul (hnew hdirect cwd)
  · intro hdirect cwd n hn
    refine gives_enoent hw₁ hon hr hc.empty.2 hn target.nul hpath (hnew hdirect cwd) ?_
    rw [findChild, hc.empty.1]
    rfl
  · intro hdirect cwd hcopy hcopy₁
    refine sameResult_of_resolvePath hup0 hcopy hcopy₁ ?_
    rw [resolvePath_up hpath (h.ne_zero hc.mem) (hresolve cwd),
      resolvePath_up hpath (h₁.ne_zero hr) (hnew hdirect cwd), hc.walkUp_root h hh]
  · exact fun hdirect cwd name hfind hcopy =>
      vfsMount_busy h₁ hr hc.new.2.2 target.nul hfind hcopy (hnew hdirect cwd)
  · intro u q hq0 hnot hcopy hcopy₁
    refine sameResult_of_resolvePath hq0 hcopy hcopy₁ ?_
    rw [resolvePath, resolvePath, startVnode, startVnode, hc.root, ← startVnode]
    rw [visitsPath] at hnot
    by_cases hnone : ¬ isAbsolute q ∧ (s.tasks u).cwd = 0
    · rw [if_pos hnone, if_pos hnone]
    rw [if_neg hnone] at hnot ⊢
    rw [if_neg hnone]
    refine hc.resolve_same h hh h₁ hsub ?_ hnot
    rw [startVnode]
    split_ifs with habsq
    · exact h.root
    · exact (hw.inv.cwd u).resolve_left fun h0 => hnone ⟨habsq, h0⟩
  · intro s' hrun cwd n hn hresr hfind
    obtain ⟨T', hnext⟩ := hw₁.inv.run hrun
    obtain ⟨hon', hr', htype⟩ := hc.later hnext
    exact gives_enoent (hw₁.next hnext) hon' hr' htype hn target.nul hpath hresr hfind
  · intro s' hrun op p s'' x hop hpabs hstep n hg
    obtain ⟨T', hnext⟩ := hw₁.inv.run hrun
    obtain ⟨hon', -, -⟩ := hc.later hnext
    obtain ⟨dir, hdir, hint, hshut, -⟩ := makes_seen (hw₁.next hnext) hon' hop hpabs hstep hg
    rintro rfl
    obtain rfl := hnext.inv.tree.node_inj _ hdir _ hon'.mem hint
    exact hshut ReflTransGen.refl
  · intro s' hrun op p s'' x hop hpabs hstep n hg q hq hresr hup
    obtain ⟨T', hnext⟩ := hw₁.inv.run hrun
    obtain ⟨hon', hr', -⟩ := hc.later hnext
    have hw' := hw₁.next hnext
    obtain ⟨dir, hdir, hint, -, first, name, hsplit, hslash, hname, hres'⟩ :=
      makes_seen hw' hon' hop hpabs hstep hg
    rw [resolvePath_absolute habs] at hresr
    rw [components_extend (hq.symm.trans hsplit) hslash hname, resolve_append, hresr] at hres'
    exact ⟨dir, hw'.hierarchy.resolve_inside hw'.inv.tree hr'
      (hon'.root_mount hw'.hierarchy).2.1 ReflTransGen.refl hup hres',
      hint⟩

theorem Sys.inDir_mountA_eq : Sys.inDir.step .mountA = some (Sys.covered, 0) := by
  have hcode : ((Sys.inDir.step .mountA).get Sys.inDir_mountA).2 = 0 := by decide
  exact (Option.some_get Sys.inDir_mountA).symm.trans (congrArg some (Prod.ext rfl hcode))

/-- A file system is mounted on the directory `/a`. -/
theorem mount_covers_a :
    ∃ d r, resolvePath Sys.inDir.st (Sys.inDir.tasks 0).cwd [47, 97] = .ok d ∧
      Covers Sys.inDir Sys.covered [47, 97] d r :=
  mount_covers Sys.inDir_reachable rfl rfl Sys.inDir_mountA_eq

def SysOp.mkdirAB : SysOp := .mkdir 0 ⟨1, [47, 97, 47, 98], by decide⟩

theorem Sys.withDir_mkdirAB : (Sys.withDir.step .mkdirAB).isSome := by decide

def Sys.withTwo : Sys := Sys.withDir.after .mkdirAB Sys.withDir_mkdirAB

theorem Sys.withTwo_reachable : Sys.withTwo.Reachable :=
  Sys.withDir_reachable.after .mkdirAB trivial Sys.withDir_mkdirAB

theorem tmpfsName_nul : (0 : UInt8) ∉ tmpfsName := by decide

def SysOp.mountBack : SysOp :=
  .mount 0 ⟨1, [47, 97, 47, 98, 47, 46, 46], by decide⟩ ⟨1, tmpfsName, tmpfsName_nul⟩

theorem Sys.withTwo_mountBack : (Sys.withTwo.step .mountBack).isSome := by decide

/-- The path `/a/b/..` names the directory `/a` until a file system is mounted on it, which hides `b`. -/
theorem mount_hides_own_path :
    Sys.withTwo.Reachable ∧ ∃ s₁ d, Sys.withTwo.step .mountBack = some (s₁, 0) ∧
      (lookupPath Sys.withTwo.st (Sys.withTwo.tasks 0).cwd [47, 97, 47, 98, 47, 46, 46]).2 = (0, d) ∧
      (Sys.withTwo.st.internal d).type = .directory ∧
      (lookupPath s₁.st (s₁.tasks 0).cwd [47, 97, 47, 98, 47, 46, 46]).2.1 = enoent := by
  have hcode : ((Sys.withTwo.step .mountBack).get Sys.withTwo_mountBack).2 = 0 := by decide
  have hfound : (lookupPath Sys.withTwo.st (Sys.withTwo.tasks 0).cwd
      [47, 97, 47, 98, 47, 46, 46]).2.1 = 0 := by decide
  have hdir : (Sys.withTwo.st.internal (lookupPath Sys.withTwo.st (Sys.withTwo.tasks 0).cwd
      [47, 97, 47, 98, 47, 46, 46]).2.2).type = .directory := by decide
  have hgone : (lookupPath (Sys.withTwo.after .mountBack Sys.withTwo_mountBack).st
      ((Sys.withTwo.after .mountBack Sys.withTwo_mountBack).tasks 0).cwd
      [47, 97, 47, 98, 47, 46, 46]).2.1 = enoent := by decide
  exact ⟨Sys.withTwo_reachable, _, _,
    (Option.some_get Sys.withTwo_mountBack).symm.trans (congrArg some (Prod.ext rfl hcode)),
    Prod.ext hfound rfl, hdir, hgone⟩

end OscKernel.Vfs
