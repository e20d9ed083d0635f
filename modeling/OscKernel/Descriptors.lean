import OscKernel.OpenOutcomes

/-!
# File descriptors

`sys_open` returns a slot number and `sys_close` empties a slot. What a call returns on failure is not
negative, so the law of descriptors holds for the calls that succeed on the vnode of their path and for
missing paths. A client that makes only such calls never holds a descriptor twice.
-/

namespace OscKernel.Vfs

open Relation

variable {st st₁ st' : State} {T : Set ℕ} {v dir cwd target : ℕ} {path name : List UInt8}
  {flags : BitVec 32} {task task' : Task}

def OpensFound (st : State) (cwd : ℕ) (path : List UInt8) : Prop :=
  ∃ v fOps, LookupFinds st cwd path v ∧ (st.vnodes v).fOps = some fOps ∧
    RoomToOpen (afterFind st cwd path) fOps

def OpensMade (st : State) (cwd : ℕ) (path : List UInt8) (flags : BitVec 32) : Prop :=
  oCreat flags ∧ CanMake st cwd path ∧ RoomToOpen (afterCreate st cwd path) .tmpfs ∧
    NamesNew st cwd path

def OpensPath (st : State) (cwd : ℕ) (path : List UInt8) (flags : BitVec 32) (target : ℕ) : Prop :=
  ∃ st' file, vfsOpen st cwd (some path) flags target = some (st', 0, file) ∧
    resolvePath st' cwd path = .ok (st'.files file).vnode

theorem opensPath_found_iff (h : Tree st T) (hcwd : cwd = 0 ∨ cwd ∈ T) (hnul : (0 : UInt8) ∉ path)
    (hfind : LookupFinds st cwd path v) (flags : BitVec 32) (target : ℕ) :
    OpensPath st cwd path flags target ↔ OpensFound st cwd path := by
  obtain ⟨hext, hsame⟩ := afterFind_extends h hnul cwd
  have hres := ((lookupFinds_iff hnul).1 hfind).2
  obtain ⟨fOps, hfOps, hopens⟩ :=
    vfsOpenVnode_cases (h.extend hext) (h.resolvePath_mem hcwd hres) flags
  rw [hsame.vnodes] at hfOps
  rw [OpensPath, vfsOpen_found hfind]
  rcases hopens with ⟨st', r, bs, heq, hr, -, hfull⟩ | ⟨st', file, bs, heq, hopens, hfile, hroom⟩
  · refine iff_of_false ?_ ?_
    · rintro ⟨st₁, file, heq₁, -⟩
      rw [heq] at heq₁
      exact hr.ne (Prod.mk.inj (Prod.mk.inj (Option.some.inj heq₁)).2).1
    · rintro ⟨w, fOps', hfind', hfOps', hroom⟩
      have hw : w = v := (Prod.mk.inj (hfind'.symm.trans hfind)).2
      rw [hw, hfOps] at hfOps'
      rw [← Option.some.inj hfOps'] at hroom
      exact hfull hroom
  · refine iff_of_true ⟨st', file, heq, ?_⟩ ⟨v, fOps, hfind, hfOps, hroom⟩
    rw [(hsame.trans hopens.same).resolvePath, hres, hfile]

theorem RoomToOpen.congr (hheap : st'.heap = st.heap) : RoomToOpen st' .tmpfs ↔ RoomToOpen st .tmpfs := by
  change (st'.heap.alloc sizeofFile).2 ≠ 0 ↔ (st.heap.alloc sizeofFile).2 ≠ 0
  rw [hheap]

theorem Created.fOps {type : NodeType} (hc : Created st st' dir v name type) :
    (st'.vnodes v).fOps = some .tmpfs := by
  obtain ⟨-, st₁, n, data, -, rfl, -, hvnode, -⟩ := hc
  change (st₁.vnodes v).fOps = _
  rw [hvnode]

theorem opensPath_made_iff {ops : VnodeOps} (h : Tree st T) (hcwd : cwd = 0 ∨ cwd ∈ T)
    (hnul : (0 : UInt8) ∉ path) (ha : Asks st cwd path dir ops)
    (hacc : Accepts (whenAsked st cwd path) dir (newName path)) (hcreat : oCreat flags) (target : ℕ) :
    OpensPath st cwd path flags target ↔ OpensMade st cwd path flags := by
  obtain ⟨st₁, v, hopen, hdir, hcan, hc, hheap⟩ := ha.accepted h hcwd hnul hacc hcreat target
  obtain ⟨fOps, hfOps, hopens⟩ :=
    vfsOpenVnode_cases (h.created hdir hc) (Set.mem_insert ..) flags
  rw [hc.fOps] at hfOps
  obtain rfl := Option.some.inj hfOps
  have hroom := RoomToOpen.congr hheap
  rw [OpensPath, hopen]
  rcases hopens with ⟨st', r, bs, heq, hr, -, hfull⟩ | ⟨st', file, bs, heq, hopens, hfile, hfits⟩
  · refine iff_of_false ?_ fun hmade => hfull (hroom.2 hmade.2.2.1)
    rintro ⟨st₂, file, heq₂, -⟩
    rw [heq] at heq₂
    exact hr.ne (Prod.mk.inj (Prod.mk.inj (Option.some.inj heq₂)).2).1
  · have hcreates : Creates st st' dir v (newName path) .file :=
      ⟨st, st₁, _, Extends.refl h.heap, ⟨rfl, rfl, rfl, rfl⟩, hcan, hc, hopens⟩
    have hnames := hcreates.resolves h hcwd hdir (ha.dir_mem h hcwd hnul).2
    have hvnode : (st'.files file).vnode = v := by rw [hfile]
    constructor
    · rintro ⟨st₂, file₂, heq₂, hres⟩
      rw [heq] at heq₂
      obtain ⟨rfl, -, rfl⟩ := by simpa only [Option.some.injEq, Prod.mk.injEq] using heq₂
      rw [hvnode] at hres
      exact ⟨hcreat, ⟨dir, ops, ha, hacc⟩, hroom.1 hfits, hnames.1 hres⟩
    · rintro ⟨-, -, -, hnew⟩
      refine ⟨st', file, heq, ?_⟩
      rw [hvnode]
      exact hnames.2 hnew

theorem Refused.not_opensPath {ops : VnodeOps} (hr : Refused st cwd path dir ops) (h : Tree st T)
    (hcwd : cwd = 0 ∨ cwd ∈ T) (hnul : (0 : UInt8) ∉ path) (hcreat : oCreat flags) (target : ℕ) :
    ¬ OpensPath st cwd path flags target := by
  rintro ⟨st', file, heq, hres⟩
  by_cases hcopy : CopyOk st path
  · rcases vfsOpen_ok h hcwd hnul heq with hsame | ⟨-, dir', ops', ha, hacc⟩
    · rw [hsame.resolvePath] at hres
      exact ((lookupFinds_iff hnul).2 ⟨hcopy, hres⟩).not_missing hr.1.missing
    · rw [(hr.1.unique ha).1] at hacc
      exact hr.2 hacc
  · -- Without a copy of the path the first lookup leaves no vnode behind.
    have hstale : staleVnode st cwd path ops = 0 := by
      rw [staleVnode, refusedVnode, lookupPath_no_copy hcopy]
      exact ite_self 0
    rw [hr.runs h hcwd hnul hcreat, if_pos hstale] at heq
    cases heq

theorem opensPath_iff (h : Tree st T) (hcwd : cwd = 0 ∨ cwd ∈ T) (hnul : (0 : UInt8) ∉ path)
    (flags : BitVec 32) (target : ℕ) :
    OpensPath st cwd path flags target ↔ OpensFound st cwd path ∨ OpensMade st cwd path flags := by
  rcases found_or_missing st cwd path with ⟨v, hfind⟩ | hmissing
  · rw [opensPath_found_iff h hcwd hnul hfind]
    refine (or_iff_left ?_).symm
    rintro ⟨-, ⟨dir, ops, ha, -⟩, -⟩
    exact hfind.not_missing ha.missing
  have hnot : ¬ OpensFound st cwd path := by
    rintro ⟨v, fOps, hfind, -⟩
    exact hfind.not_missing hmissing
  rw [or_iff_right hnot]
  have hfails : ∀ {st₁ r}, vfsOpen st cwd (some path) flags target = some (st₁, r, 0) → r < 0 →
      ¬ OpensPath st cwd path flags target := by
    rintro st₁ r heq₁ hr ⟨st', file, heq, -⟩
    rw [heq] at heq₁
    exact hr.ne (Prod.mk.inj (Prod.mk.inj (Option.some.inj heq₁)).2).1.symm
  by_cases hcreat : oCreat flags
  swap
  · obtain ⟨st₁, r, heq, hr, -⟩ := vfsOpen_plain h hnul hmissing hcreat target
    exact iff_of_false (hfails heq hr) fun hmade => hcreat hmade.1
  by_cases hasks : ∃ dir ops, Asks st cwd path dir ops
  swap
  · obtain ⟨st₁, r, heq, hr, -⟩ :=
      vfsOpen_unasked h hnul hmissing (fun dir ops ha => hasks ⟨dir, ops, ha⟩) hcreat target
    refine iff_of_false (hfails heq hr) ?_
    rintro ⟨-, ⟨dir, ops, ha, -⟩, -⟩
    exact hasks ⟨dir, ops, ha⟩
  obtain ⟨dir, ops, ha⟩ := hasks
  by_cases hacc : Accepts (whenAsked st cwd path) dir (newName path)
  · exact opensPath_made_iff h hcwd hnul ha hacc hcreat target
  · refine iff_of_false (Refused.not_opensPath ⟨ha, hacc⟩ h hcwd hnul hcreat target) ?_
    rintro ⟨-, ⟨dir', ops', ha', hacc'⟩, -⟩
    rw [(ha.unique ha').1] at hacc'
    exact hacc hacc'

structure Task.Fills (task task' : Task) (i : Fin threadMaxFd) : Prop where
  empty : task.fdTable i = 0
  least : ∀ j < i, task.fdTable j ≠ 0
  filled : task'.fdTable i ≠ 0
  others : ∀ j, j ≠ i → task'.fdTable j = task.fdTable j

/-- `sys_open` returns the slot that it fills with a file on the vnode of the path, or it returns a
negative value and leaves the table alone. -/
def OpenLaw (st : State) (task : Task) (path : UserPath) (flags : BitVec 32) : Prop :=
  ∃ st' task' x, sysOpen st task path flags = some (st', task', x) ∧
    ((∃ i : Fin threadMaxFd, x = (i : ℕ) ∧ task.Fills task' i ∧
        resolvePath st' task.cwd path.text = .ok (st'.files (task'.fdTable i)).vnode) ∨
      x < 0 ∧ task'.fdTable = task.fdTable)

def OpenWorks (st : State) (task : Task) (path : UserPath) (flags : BitVec 32) : Prop :=
  path.missing ∨ task.firstEmpty ≠ none ∧
    (OpensFound st task.cwd path.text ∨ OpensMade st task.cwd path.text flags)

theorem Task.firstEmpty_none (h : task.firstEmpty = none) (i : Fin threadMaxFd) :
    task.fdTable i ≠ 0 := by
  simpa using List.find?_eq_none.1 h i (List.mem_finRange i)

theorem Task.fills_setFd {i : Fin threadMaxFd} {file : ℕ} (h : task.firstEmpty = some i)
    (hfile : file ≠ 0) : task.Fills (task.setFd i file) i where
  empty := (Task.firstEmpty_spec h).1
  least := (Task.firstEmpty_spec h).2
  filled := by
    rwa [show (task.setFd i file).fdTable i = file from Function.update_self ..]
  others _ hj := Function.update_of_ne hj _ _

/-- With a path and an empty slot, the law holds when `vfs_open` opens the vnode of the path. -/
theorem openLaw_iff_opensPath {path : UserPath} {i : Fin threadMaxFd} (h : Tree st T)
    (hcwd : task.cwd = 0 ∨ task.cwd ∈ T) (hmissing : ¬ path.missing) (hfirst : task.firstEmpty = some i) :
    OpenLaw st task path flags ↔ OpensPath st task.cwd path.text flags 0 := by
  have hcall : sysOpen st task path flags =
      (vfsOpen st task.cwd (some path.text) flags 0).bind fun r =>
        if r.2.1 ≠ 0 then some (r.1, task.setFd i r.2.2, -r.2.1)
        else some (r.1, task.setFd i r.2.2, (i : ℕ)) := by
    rw [sysOpen, if_neg hmissing, hfirst]
    rfl
  have hslot : ∀ file, (task.setFd i file).fdTable i = file := fun file => Function.update_self ..
  rw [OpenLaw, hcall]
  rcases vfsOpen_cases h hcwd path.nul flags 0 with
    hnone | ⟨st₁, r, T', heq, hr, -⟩ | ⟨st₁, file, v, T', heq, -, -, hnew⟩
  · rw [OpensPath, hnone]
    refine iff_of_false ?_ ?_
    · rintro ⟨st', task', x, hstep, -⟩
      cases hstep
    · rintro ⟨st', file, hopen, -⟩
      cases hopen
  · refine iff_of_false ?_ ?_
    · rintro ⟨st', task', x, hstep, hlaw⟩
      rw [heq, Option.bind_some, if_pos hr.ne] at hstep
      obtain ⟨rfl, rfl, rfl⟩ := by simpa only [Option.some.injEq, Prod.mk.injEq] using hstep
      rcases hlaw with ⟨j, hx, hfills, -⟩ | ⟨hx, -⟩
      · have hij : j = i := by
          rcases lt_trichotomy j i with hlt | heq' | hlt
          · exact absurd hfills.empty ((Task.firstEmpty_spec hfirst).2 j hlt)
          · exact heq'
          · exact absurd (Task.firstEmpty_spec hfirst).1 (hfills.least i hlt)
        exact hfills.filled (hij ▸ hslot 0)
      · omega
    · rintro ⟨st', file, hopen, -⟩
      rw [heq] at hopen
      exact hr.ne (Prod.mk.inj (Prod.mk.inj (Option.some.inj hopen)).2).1
  · constructor
    · rintro ⟨st', task', x, hstep, hlaw⟩
      rw [heq, Option.bind_some, if_neg (not_not.2 rfl)] at hstep
      obtain ⟨rfl, rfl, rfl⟩ := by simpa only [Option.some.injEq, Prod.mk.injEq] using hstep
      rcases hlaw with ⟨j, hx, -, hres⟩ | ⟨hx, -⟩
      · have hij : j = i := Fin.ext (by omega)
        rw [hij, hslot] at hres
        exact ⟨st₁, file, heq, hres⟩
      · omega
    · rintro ⟨st', file', hopen, hres⟩
      rw [heq] at hopen
      obtain ⟨rfl, -, rfl⟩ := by simpa only [Option.some.injEq, Prod.mk.injEq] using hopen
      refine ⟨st₁, task.setFd i file, (i : ℕ), ?_, Or.inl ⟨i, rfl,
        Task.fills_setFd hfirst hnew.ne_zero, ?_⟩⟩
      · rw [heq, Option.bind_some, if_neg (not_not.2 rfl)]
      · rw [hslot]
        exact hres

theorem openLaw_iff {path : UserPath} (h : Tree st T) (hcwd : task.cwd = 0 ∨ task.cwd ∈ T)
    (flags : BitVec 32) : OpenLaw st task path flags ↔ OpenWorks st task path flags := by
  by_cases hmissing : path.missing
  · refine iff_of_true ⟨st, task, -1, ?_, Or.inr ⟨by decide, rfl⟩⟩ (Or.inl hmissing)
    rw [sysOpen, if_pos hmissing]
  rw [OpenWorks, or_iff_right hmissing]
  cases hfirst : task.firstEmpty with
  | none =>
      refine iff_of_false ?_ fun h => h.1 rfl
      rintro ⟨st', task', x, hstep, hlaw⟩
      rw [sysOpen, if_neg hmissing, hfirst] at hstep
      obtain ⟨rfl, rfl, rfl⟩ := by simpa only [Option.some.injEq, Prod.mk.injEq] using hstep
      rcases hlaw with ⟨i, -, hfills, -⟩ | ⟨hx, -⟩
      · exact Task.firstEmpty_none hfirst i hfills.empty
      · omega
  | some i =>
      rw [openLaw_iff_opensPath h hcwd hmissing hfirst, opensPath_iff h hcwd path.nul]
      exact ⟨fun hopens => ⟨Option.some_ne_none i, hopens⟩, fun hopens => hopens.2⟩

def CloseLaw (st : State) (task : Task) (fd : ℤ) : Prop :=
  ∀ i, slot fd = some i →
    (sysClose st task fd).2.1.fdTable i = 0 ∧
      ∀ j, j ≠ i → (sysClose st task fd).2.1.fdTable j = task.fdTable j

theorem sysClose_law (st : State) (task : Task) (fd : ℤ) : CloseLaw st task fd := by
  intro i hslot
  have htask : (sysClose st task fd).2.1 = task.setFd i 0 := by
    rw [sysClose, hslot]
  rw [htask]
  exact ⟨Function.update_self .., fun j hj => Function.update_of_ne hj _ _⟩

/-- The system with the descriptors that a program has from `sys_open` and has not closed. -/
structure Client where
  sys : Sys
  held : List ℤ

/-- What the program in the task `t` holds after a step that leaves `x` in its register: it takes every
value that is not negative for a descriptor. -/
def heldAfter (t : ℕ) (held : List ℤ) : SysOp → ℤ → List ℤ
  | .open u _ _, x => if u = t ∧ 0 ≤ x then x :: held else held
  | .close u fd, _ => if u = t then held.filter (· ≠ fd) else held
  | _, _ => held

/-- After the step the number `t` is that of another thread, or of none. -/
def SysOp.Renews (t : ℕ) : SysOp → Prop
  | .start u | .fork u _ | .reap u _ => u = t
  | _ => False

def Client.Step (t : ℕ) (c c' : Client) : Prop :=
  ∃ op x, c.sys.Valid op ∧ ¬ op.Renews t ∧ c.sys.step op = some (c'.sys, x) ∧
    c'.held = heldAfter t c.held op x ∧
    ∀ path flags, op = .open t path flags → OpenWorks c.sys.st (c.sys.tasks t) path flags

structure Client.Sound (t : ℕ) (c : Client) : Prop where
  nodup : c.held.Nodup
  inUse : ∀ fd ∈ c.held, ∃ i, slot fd = some i ∧ (c.sys.tasks t).fdTable i ≠ 0

theorem slot_fin (i : Fin threadMaxFd) : slot ((i : ℕ) : ℤ) = some i := by
  have hi : 0 ≤ ((i : ℕ) : ℤ) ∧ ((i : ℕ) : ℤ) < threadMaxFd := by omega
  rw [slot, dif_pos hi]
  exact congrArg some (Fin.ext (by simp))

theorem slot_inj {fd fd' : ℤ} {i : Fin threadMaxFd} (h : slot fd = some i) (h' : slot fd' = some i) :
    fd = fd' := by
  rw [slot] at h h'
  split_ifs at h h' with hfd hfd'
  have heq := (Option.some.inj h).trans (Option.some.inj h').symm
  have := Fin.val_eq_of_eq heq
  simp only at this
  omega

theorem Sys.setTask_other (s : Sys) {t u : ℕ} (hu : u ≠ t) (st : State) (task : Task) :
    (s.setTask t st task).tasks u = s.tasks u := Function.update_of_ne hu ..

theorem sysChdir_fdTable (st : State) (task : Task) (path : UserPath) :
    (sysChdir st task path).2.1.fdTable = task.fdTable := by
  rw [sysChdir]
  split_ifs <;> rfl

/-- Only its own `sys_open` and `sys_close` change the table of a task that lives. -/
theorem Sys.step_fdTable {s s' : Sys} {op : SysOp} {x : ℤ} {t : ℕ} (heq : s.step op = some (s', x))
    (hopen : ∀ path flags, op ≠ .open t path flags) (hclose : ∀ fd, op ≠ .close t fd)
    (hold : ¬ op.Renews t) : (s'.tasks t).fdTable = (s.tasks t).fdTable := by
  cases op with
  | «open» u path flags =>
      obtain ⟨r, -, heq⟩ := Option.bind_eq_some_iff.1 heq
      obtain ⟨rfl, -⟩ := Prod.mk.inj (Option.some.inj heq)
      have hu : t ≠ u := fun h => hopen path flags (h ▸ rfl)
      rw [Sys.setTask_other s hu]
  | close u fd =>
      obtain ⟨rfl, -⟩ := Prod.mk.inj (Option.some.inj heq)
      have hu : t ≠ u := fun h => hclose fd (h ▸ rfl)
      rw [Sys.setTask_other s hu]
  | write u fd buf =>
      obtain ⟨r, -, heq⟩ := Option.bind_eq_some_iff.1 heq
      obtain ⟨rfl, -⟩ := Prod.mk.inj (Option.some.inj heq)
      rfl
  | read u fd buf count port =>
      obtain ⟨r, -, heq⟩ := Option.bind_eq_some_iff.1 heq
      obtain ⟨rfl, -⟩ := Prod.mk.inj (Option.some.inj heq)
      rfl
  | lseek u fd offset whence =>
      obtain ⟨rfl, -⟩ := Prod.mk.inj (Option.some.inj heq)
      rfl
  | mkdir u path =>
      obtain ⟨rfl, -⟩ := Prod.mk.inj (Option.some.inj heq)
      rfl
  | mount u target filesystem =>
      obtain ⟨rfl, -⟩ := Prod.mk.inj (Option.some.inj heq)
      rfl
  | chdir u path =>
      obtain ⟨rfl, -⟩ := Prod.mk.inj (Option.some.inj heq)
      change ((s.setTask u _ (sysChdir s.st (s.tasks u) path).2.1).tasks t).fdTable = _
      by_cases hu : t = u
      · rw [hu, Sys.tasks_setTask, sysChdir_fdTable]
      · rw [Sys.setTask_other s hu]
  | start u =>
      have hu : t ≠ u := fun h => hold h.symm
      obtain ⟨⟨st, task⟩, -, heq⟩ := Option.bind_eq_some_iff.1 heq
      cases task with
      | none =>
          obtain ⟨rfl, -⟩ := Prod.mk.inj (Option.some.inj heq)
          rfl
      | some task =>
          obtain ⟨rfl, -⟩ := Prod.mk.inj (Option.some.inj heq)
          rw [Sys.setTask_other s hu]
  | fork u held =>
      have hu : t ≠ u := fun h => hold h.symm
      rcases hfork : sysFork s.st held with ⟨st, _ | th⟩
      · rw [Sys.step, hfork] at heq
        obtain ⟨rfl, -⟩ := Prod.mk.inj (Option.some.inj heq)
        rfl
      · rw [Sys.step, hfork] at heq
        obtain ⟨rfl, -⟩ := Prod.mk.inj (Option.some.inj heq)
        rw [Sys.setTask_other s hu]
  | reap u th =>
      have hu : t ≠ u := fun h => hold h.symm
      obtain ⟨rfl, -⟩ := Prod.mk.inj (Option.some.inj heq)
      rw [Sys.setTask_other s hu]
  | register name ops =>
      obtain ⟨r, -, heq⟩ := Option.bind_eq_some_iff.1 heq
      obtain ⟨rfl, -⟩ := Prod.mk.inj (Option.some.inj heq)
      rfl
  | mknod u path ops =>
      obtain ⟨r, -, heq⟩ := Option.bind_eq_some_iff.1 heq
      obtain ⟨rfl, -⟩ := Prod.mk.inj (Option.some.inj heq)
      rfl
  | fill u path entries =>
      obtain ⟨r, -, heq⟩ := Option.bind_eq_some_iff.1 heq
      obtain ⟨rfl, -⟩ := Prod.mk.inj (Option.some.inj heq)
      rfl

variable {t : ℕ} {c c' : Client}

/-- An `sys_open` that works gives a new descriptor or none. -/
theorem Client.Sound.open {path : UserPath} {x : ℤ} (h : c.Sound t) (hinv : c.sys.Inv T)
    (heq : c.sys.step (.open t path flags) = some (c'.sys, x))
    (hheld : c'.held = if t = t ∧ 0 ≤ x then x :: c.held else c.held)
    (hworks : OpenWorks c.sys.st (c.sys.tasks t) path flags) : c'.Sound t := by
  obtain ⟨st', task', x', hcall, hlaw⟩ := (openLaw_iff hinv.tree (hinv.cwd t) flags).2 hworks
  obtain ⟨⟨st₁, task₁, x₁⟩, hcall₁, heq⟩ := Option.bind_eq_some_iff.1 heq
  rw [hcall] at hcall₁
  obtain ⟨rfl, rfl, rfl⟩ := by simpa only [Option.some.injEq, Prod.mk.injEq] using hcall₁
  obtain ⟨hsys, rfl⟩ := Prod.mk.inj (Option.some.inj heq)
  have htask : c'.sys.tasks t = task' := by rw [← hsys, Sys.tasks_setTask]
  rcases hlaw with ⟨i, rfl, hfills, -⟩ | ⟨hx, htable⟩
  · rw [if_pos ⟨rfl, by omega⟩] at hheld
    have hnew : ((i : ℕ) : ℤ) ∉ c.held := by
      intro hmem
      obtain ⟨j, hj, hne⟩ := h.inUse _ hmem
      rw [slot_fin, Option.some.injEq] at hj
      exact hne (hj ▸ hfills.empty)
    refine ⟨hheld ▸ List.nodup_cons.2 ⟨hnew, h.nodup⟩, fun fd hfd => ?_⟩
    rw [htask]
    rw [hheld] at hfd
    rcases List.mem_cons.1 hfd with rfl | hfd
    · exact ⟨i, slot_fin i, hfills.filled⟩
    · obtain ⟨j, hj, hne⟩ := h.inUse fd hfd
      have hji : j ≠ i := by
        rintro rfl
        exact hne hfills.empty
      exact ⟨j, hj, by rwa [hfills.others j hji]⟩
  · rw [if_neg fun hc => absurd hc.2 (not_le.2 hx)] at hheld
    refine ⟨hheld ▸ h.nodup, fun fd hfd => ?_⟩
    rw [htask, htable]
    exact h.inUse fd (hheld ▸ hfd)

theorem Client.Sound.close {fd x : ℤ} (h : c.Sound t)
    (heq : c.sys.step (.close t fd) = some (c'.sys, x))
    (hheld : c'.held = if t = t then c.held.filter (· ≠ fd) else c.held) : c'.Sound t := by
  have hsys : c.sys.setTask t (sysClose c.sys.st (c.sys.tasks t) fd).1
      (sysClose c.sys.st (c.sys.tasks t) fd).2.1 = c'.sys := (Prod.mk.inj (Option.some.inj heq)).1
  have htask : c'.sys.tasks t = (sysClose c.sys.st (c.sys.tasks t) fd).2.1 := by
    rw [← hsys, Sys.tasks_setTask]
  rw [if_pos rfl] at hheld
  refine ⟨hheld ▸ h.nodup.filter _, fun fd' hfd' => ?_⟩
  rw [hheld, List.mem_filter, decide_eq_true_iff] at hfd'
  obtain ⟨hfd', hne⟩ := hfd'
  obtain ⟨j, hj, hused⟩ := h.inUse fd' hfd'
  refine ⟨j, hj, ?_⟩
  rw [htask, sysClose]
  cases hslot : slot fd with
  | none => exact hused
  | some i =>
      have hji : j ≠ i := by
        rintro rfl
        exact hne (slot_inj hj hslot)
      change ((c.sys.tasks t).setFd i 0).fdTable j ≠ 0
      rwa [show ((c.sys.tasks t).setFd i 0).fdTable j = (c.sys.tasks t).fdTable j from
        Function.update_of_ne hji _ _]

theorem Client.Sound.step (h : c.Sound t) (hinv : c.sys.Inv T) (hstep : Client.Step t c c') :
    c'.Sound t := by
  obtain ⟨op, x, -, hold, heq, hheld, hworks⟩ := hstep
  by_cases hopen : ∃ path flags, op = .open t path flags
  · obtain ⟨path, flags, rfl⟩ := hopen
    exact h.open hinv heq hheld (hworks path flags rfl)
  by_cases hclose : ∃ fd, op = .close t fd
  · obtain ⟨fd, rfl⟩ := hclose
    exact h.close heq hheld
  push Not at hopen hclose
  have htable := Sys.step_fdTable heq hopen hclose hold
  have hsame : heldAfter t c.held op x = c.held := by
    cases op with
    | «open» u path flags =>
        have hu : ¬ (u = t ∧ 0 ≤ x) := fun hu => hopen path flags (hu.1 ▸ rfl)
        exact if_neg hu
    | close u fd =>
        have hu : ¬ u = t := fun hu => hclose fd (hu ▸ rfl)
        exact if_neg hu
    | _ => rfl
  rw [hsame] at hheld
  refine ⟨hheld ▸ h.nodup, fun fd hfd => ?_⟩
  rw [htable]
  exact h.inUse fd (hheld ▸ hfd)

theorem Client.Step.reachable (hs : c.sys.Reachable) (hstep : Client.Step t c c') :
    c'.sys.Reachable := by
  obtain ⟨op, x, hvalid, -, heq, -⟩ := hstep
  exact hs.step hvalid heq

theorem Client.sound_run (hs : c.sys.Reachable) (h : c.Sound t)
    (hrun : ReflTransGen (Client.Step t) c c') : c'.Sound t := by
  have hall : c'.sys.Reachable ∧ c'.Sound t := by
    refine Runs.Stable.run (I := fun c : Client => c.sys.Reachable ∧ c.Sound t) ?_ ⟨hs, h⟩ hrun
    rintro c c' ⟨hs, h⟩ hstep
    obtain ⟨T, hinv⟩ := hs.inv
    exact ⟨hstep.reachable hs, h.step hinv hstep⟩
  exact hall.2

/-- The law of descriptors: exactly the calls of `sys_open` that work obey it, every `sys_close` obeys
it, and a program that opens only what works holds different descriptors of slots in use. -/
theorem descriptor_table_law {s : Sys} (hs : s.Reachable) (t : ℕ) :
    (∀ path flags, OpenLaw s.st (s.tasks t) path flags ↔ OpenWorks s.st (s.tasks t) path flags) ∧
      (∀ fd, CloseLaw s.st (s.tasks t) fd) ∧
      ∀ c, ReflTransGen (Client.Step t) ⟨s, []⟩ c → c.Sound t := by
  obtain ⟨T, hinv⟩ := hs.inv
  refine ⟨fun path flags => openLaw_iff hinv.tree (hinv.cwd t) flags, sysClose_law s.st (s.tasks t),
    fun c hrun => Client.sound_run (c := ⟨s, []⟩) hs ⟨List.nodup_nil, fun fd hfd => ?_⟩ hrun⟩
  cases hfd

/-- A file `/a/b` is made and opened. -/
theorem descriptor_table_law_file :
    OpenLaw Sys.inRoot.st (Sys.inRoot.tasks 0) ⟨1, [47, 97, 47, 98], by decide⟩ 64 ↔
      OpenWorks Sys.inRoot.st (Sys.inRoot.tasks 0) ⟨1, [47, 97, 47, 98], by decide⟩ 64 :=
  (descriptor_table_law Sys.inRoot_reachable 0).1 _ _

/-- A path that is not there gives `2`, as if it were a descriptor. -/
theorem sysOpen_missing_is_descriptor :
    Sys.blank.Reachable ∧
      (sysOpen Sys.blank.st (Sys.blank.tasks 0) ⟨1, [47, 97], by decide⟩ 0).map (·.2.2) = some 2 ∧
      ¬ OpenLaw Sys.blank.st (Sys.blank.tasks 0) ⟨1, [47, 97], by decide⟩ 0 := by
  have hcode : (sysOpen Sys.blank.st (Sys.blank.tasks 0) ⟨1, [47, 97], by decide⟩ 0).map (·.2.2) =
      some 2 := by decide
  refine ⟨Sys.blank_reachable, hcode, ?_⟩
  rintro ⟨st', task', x, hcall, hlaw⟩
  rw [hcall] at hcode
  have hx : x = 2 := Option.some.inj hcode
  subst hx
  rcases hlaw with ⟨i, hi, hfills, -⟩ | ⟨hneg, -⟩
  · exact hfills.least ⟨0, by decide⟩ (Fin.lt_def.2 (by simp only; omega)) rfl
  · omega

end OscKernel.Vfs
