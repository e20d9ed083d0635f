import OscKernel.DescriptorCalls
import OscKernel.FileHandles
import OscKernel.Runs

/-!
# Runs of system calls on files

Each call of a run does to the files and descriptors one of the things that the store allows, whatever all
tasks have done before.
-/

namespace OscKernel.Vfs

open OpenFiles (Adds OneMore)
open Relation

variable {s s' s₀ : Sys} {st st' : State} {T T' : Set ℕ} {m m' : FileStore} {c c' : Contents}
  {t v file : ℕ} {fd x : ℤ} {i : Fin threadMaxFd} {out : List UInt8} {path : UserPath} {flags : BitVec 32}
  {l : List (SysOp × ℤ × List UInt8)}

/-- A new handle is at the start of a file, or on no file. -/
theorem NewHandle.shows (hnew : NewHandle st st' file v flags) (h : Tree st' T) (hc : Stored st' T c)
    (hv : v ∈ T) : ∃ h, HandleShows st' c file h ∧ (h = none ∨ h = some (v, 0) ∧ c v ≠ none) := by
  by_cases hdev : (st'.vnodes v).fOps ≠ some .tmpfs ∧ (st'.vnodes v).fOps ≠ some .initramfs
  · refine ⟨none, Or.inr (Or.inl ?_), Or.inl rfl⟩
    rw [hnew.file]
    exact hdev
  cases hcv : c v with
  | none =>
      refine ⟨none, Or.inr (Or.inr ?_), Or.inl rfl⟩
      rw [hnew.file]
      exact hcv
  | some y =>
      have hf := hc.get hcv
      have hops : (st'.vnodes v).fOps = some y.1.fileOps := by
        by_cases htmpfs : (st'.vnodes v).fOps = some .tmpfs
        · have hvops := (h.fOps v hv).2 htmpfs
          rw [hf.vOps] at hvops
          rw [htmpfs, Option.some.inj hvops]
          rfl
        · have hinit : (st'.vnodes v).fOps = some .initramfs := by
            by_contra hne
            exact hdev ⟨htmpfs, hne⟩
          rw [hinit, hf.fOps hinit]
          rfl
      refine ⟨some (v, 0), ⟨hnew.ne_zero, ?_, ?_, by norm_num, y, hcv, ?_⟩,
        Or.inr ⟨rfl, Option.some_ne_none y⟩⟩
      · rw [hnew.file]
      · rw [hnew.file]
      · rw [hnew.file, hops]

/-- `vfs_open` for a slot of a task: what it makes, and the handle. -/
theorem Sys.Shows.openSlot (hs : s.Shows T m) {cwd : ℕ} (hcwd : cwd = 0 ∨ cwd ∈ T) {p : List UInt8}
    (hnul : (0 : UInt8) ∉ p) {target : ℕ}
    (hopen : vfsOpen s.st cwd (some p) flags target = some (st', x, file)) :
    ∃ T' c', FilesStep s.st st' T T' m.content c' ∧ OneMore newFile m.content c' ∧
      (¬ oCreat flags → c' = m.content) ∧
      (x < 0 ∧ file = 0 ∨ x = 0 ∧ ∃ h, (h = none ∨ ∃ v, h = some (v, 0) ∧ c' v ≠ none) ∧
        Sys.Shows (s.setTask t st' ((s.tasks t).setFd i file)) T'
          (OpenFiles.setHandle { m with content := c' } (t, i) h)) := by
  obtain ⟨T', c', hf, hone, hcreat, hend⟩ := vfsOpen_files hs.inv.tree hs.stored hcwd hnul hopen
  refine ⟨T', c', hf, hone, hcreat, hend.imp_right ?_⟩
  rintro ⟨rfl, v, hv, hnew, hno⟩
  have hs' := hs.filesStep hf
  obtain ⟨h, hshow, hh⟩ := hnew.shows hs'.inv.tree hs'.stored hv
  refine ⟨rfl, h, hh.imp_right fun ⟨heq, hne⟩ => ⟨v, heq, hne⟩, hs'.setFd ?_ (fun _ => hno) hshow⟩
  exact (hs.inv.grows hf.grows).setFd (t := t) (i := i) (fun u j hne => (hs.inv.handle u j hne).live) hv hnew

theorem Sys.Shows.open (hs : s.Shows T m) {task' : Task}
    (heq : sysOpen s.st (s.tasks t) path flags = some (st', task', x)) :
    ∃ T' m', Sys.Shows (s.setTask t st' task') T' m' ∧ FileStore.Allows m (.open t path flags) x [] m' := by
  have hsame : FileStore.Allows m (.open t path flags) x [] m :=
    ⟨rfl, Or.inl rfl, fun _ => rfl, Or.inl rfl⟩
  rw [sysOpen] at heq
  split_ifs at heq with hmissing
  · obtain ⟨rfl, rfl, -⟩ := by simpa only [Option.some.injEq, Prod.mk.injEq] using heq
    exact ⟨T, m, by rwa [Sys.setTask_same], hsame⟩
  cases hfirst : (s.tasks t).firstEmpty with
  | none =>
      rw [hfirst] at heq
      obtain ⟨rfl, rfl, -⟩ := by simpa only [Option.some.injEq, Prod.mk.injEq] using heq
      exact ⟨T, m, by rwa [Sys.setTask_same], hsame⟩
  | some i =>
      rw [hfirst] at heq
      have hempty := (Task.firstEmpty_spec hfirst).1
      obtain ⟨⟨st₁, ret, file⟩, hopen, heq⟩ := Option.bind_eq_some_iff.1 heq
      obtain ⟨T', c', hf, hone, hcreat, ⟨hr, rfl⟩ | ⟨rfl, h, hh, hs'⟩⟩ :=
        hs.openSlot (t := t) (i := i) (hs.inv.cwd t) path.nul hopen
      · simp only [if_pos hr.ne] at heq
        obtain ⟨rfl, rfl, -⟩ := by simpa only [Option.some.injEq, Prod.mk.injEq] using heq
        have htask : (s.tasks t).setFd i 0 = s.tasks t := by
          rw [Task.setFd, ← hempty, Function.update_eq_self]
        refine ⟨T', { m with content := c' }, ?_, rfl, hone, hcreat, Or.inl rfl⟩
        rw [htask, Sys.setTask_same]
        exact hs.filesStep hf
      · simp only [if_neg (not_not.2 (rfl : (0 : ℤ) = 0))] at heq
        obtain ⟨rfl, rfl, rfl⟩ := by simpa only [Option.some.injEq, Prod.mk.injEq] using heq
        have hfree : m.handle (t, i) = none := by
          cases hm : m.handle (t, i) with
          | none => rfl
          | some y =>
              have hshow := hs.handle t i
              rw [hm] at hshow
              exact absurd hempty hshow.1
        refine ⟨T', _, hs', rfl, hone, hcreat, ?_⟩
        rcases hh with rfl | ⟨v, rfl, hv⟩
        · left
          change Function.update m.handle (t, i) none = m.handle
          rw [← hfree, Function.update_eq_self]
        · exact Or.inr ⟨i, v, rfl, hfree, hv, rfl⟩

/-- A handle that no slot has is closed. -/
theorem Sys.Shows.closed (hs : s.Shows T m)
    (hno : ∀ u j, (s.tasks u).fdTable j ≠ 0 → (s.tasks u).fdTable j ≠ file)
    (hfile : file = 0 ∨ (file, sizeofFile) ∈ s.st.heap.live) (hdata : NoData s.st m.content file) :
    Sys.Shows ⟨(vfsClose s.st file).1, s.tasks⟩ T m := by
  have hinv := hs.inv.closed hno hfile
  have hshow : ∀ {st' : State}, (∀ p ≠ file, st'.files p = s.st.files p) → ∀ u j,
      HandleShows st' m.content ((s.tasks u).fdTable j) (m.handle (u, j)) := by
    intro st' hfiles u j
    by_cases h0 : (s.tasks u).fdTable j = 0
    · have hshow := hs.handle u j
      cases hm : m.handle (u, j) with
      | none => exact Or.inl h0
      | some y =>
          rw [hm] at hshow
          exact absurd h0 hshow.1
    · exact (hs.handle u j).congr (hfiles _ (hno u j h0))
  rcases vfsClose_cases s.st file with ⟨r, heq, -⟩ | heq | heq
  · rw [heq]
    exact hs
  · rw [heq] at hinv ⊢
    exact ⟨hinv, hs.stored.files _, hs.noData, hshow fun p hp => Function.update_of_ne hp ..⟩
  · rw [heq] at hinv ⊢
    exact ⟨hinv, hs.stored.free hdata, hs.noData, hshow fun _ _ => rfl⟩

theorem Sys.Shows.close (hs : s.Shows T m) (t : ℕ) (fd : ℤ) :
    ∃ m', Sys.Shows (s.setTask t (sysClose s.st (s.tasks t) fd).1 (sysClose s.st (s.tasks t) fd).2.1) T m' ∧
      FileStore.Allows m (.close t fd) (sysClose s.st (s.tasks t) fd).2.2 [] m' := by
  have hinv := hs.inv.close t fd
  rw [sysClose] at hinv ⊢
  cases hi : slot fd with
  | none =>
      refine ⟨m, ?_, rfl, ?_⟩
      · rw [Sys.setTask_same]
        exact hs
      · rw [hi]
        rfl
  | some i =>
      have hclear : (s.setTask t s.st ((s.tasks t).setFd i 0)).Shows T (m.setHandle (t, i) none) :=
        hs.setFd (hs.inv.clearFd t i) (fun h0 => absurd rfl h0) (Or.inl rfl)
      refine ⟨m.setHandle (t, i) none, ?_, rfl, ?_⟩
      swap
      · rw [hi]
        rfl
      have hfile : (s.tasks t).fdTable i = 0 ∨ ((s.tasks t).fdTable i, sizeofFile) ∈ s.st.heap.live := by
        by_cases h0 : (s.tasks t).fdTable i = 0
        · exact Or.inl h0
        · exact Or.inr (hs.inv.handle t i h0).live
      have hdata : NoData s.st m.content ((s.tasks t).fdTable i) := by
        by_cases h0 : (s.tasks t).fdTable i = 0
        · intro w hw hcap heq
          obtain ⟨y, hy⟩ := Option.ne_none_iff_exists'.1 hw
          have hlive := hs.inv.tree.heap.start_pos _ ((hs.stored.get hy).live hcap)
          rw [heq, h0] at hlive
          exact absurd hlive (lt_irrefl 0)
        · exact hs.noData t i h0
      refine hclear.closed (fun u j hne heq => ?_) hfile hdata
      rw [s.tasks_setFd] at hne heq
      split_ifs at hne heq with huj
      · exact hne rfl
      · obtain ⟨rfl, rfl⟩ := hs.inv.distinct u j t i hne heq
        exact huj rfl

/-- `m'` is `m` but for the descriptors of `t`, which are at the start of files or on none. -/
structure FileStore.Starts (m : FileStore) (t : ℕ) (m' : FileStore) : Prop where
  content : m'.content = m.content
  other : ∀ u i, u ≠ t → m'.handle (u, i) = m.handle (u, i)
  own : ∀ i, m'.handle (t, i) = none ∨ ∃ v, m'.handle (t, i) = some (v, 0) ∧ m.content v ≠ none

/-- One of the three files of a new thread. -/
theorem Sys.Shows.openStd {m₀ : FileStore} (hs : s.Shows T m) (hstart : m₀.Starts t m) {task' : Task}
    (heq : openStd s.st (s.tasks t) i = some (st', task')) :
    ∃ T' m', Sys.Shows (s.setTask t st' task') T' m' ∧ m₀.Starts t m' := by
  have hstarts : ∀ h : Option (ℕ × ℕ), (h = none ∨ ∃ v, h = some (v, 0) ∧ m₀.content v ≠ none) →
      m₀.Starts t (m.setHandle (t, i) h) := by
    intro h hh
    refine ⟨hstart.content, fun u j hu => ?_, fun j => ?_⟩
    · refine Eq.trans (Function.update_of_ne ?_ ..) (hstart.other u j hu)
      exact fun heq => hu (congrArg Prod.fst heq)
    · change Function.update m.handle (t, i) h (t, j) = none ∨
        ∃ v, Function.update m.handle (t, i) h (t, j) = some (v, 0) ∧ m₀.content v ≠ none
      by_cases hj : j = i
      · rw [hj, Function.update_self]
        exact hh
      · have hne : ((t, j) : Descriptor) ≠ (t, i) := fun heq => hj (congrArg Prod.snd heq)
        rw [Function.update_of_ne hne]
        exact hstart.own j
  rw [Vfs.openStd] at heq
  obtain ⟨⟨st₁, ret, file⟩, hopen, heq⟩ := Option.bind_eq_some_iff.1 heq
  obtain ⟨rfl, rfl⟩ := Prod.mk.inj (Option.some.inj heq)
  have hnul : (0 : UInt8) ∉ devUartPath := by decide
  obtain ⟨T', c', hf, -, hcreat, ⟨-, rfl⟩ | ⟨-, h, hh, hs'⟩⟩ :=
    hs.openSlot (t := t) (i := i) (hs.inv.cwd t) hnul hopen
  · obtain rfl := hcreat (by decide)
    have hs' := hs.filesStep hf
    refine ⟨T', m.setHandle (t, i) none, ?_, hstarts none (Or.inl rfl)⟩
    exact hs'.setFd (hs'.inv.clearFd t i) (fun h0 => absurd rfl h0) (Or.inl rfl)
  · obtain rfl := hcreat (by decide)
    refine ⟨T', m.setHandle (t, i) h, hs', hstarts h ?_⟩
    rwa [← hstart.content]

theorem Sys.Shows.openStdFiles {m₀ : FileStore} (hs : s.Shows T m) (hstart : m₀.Starts t m) {task' : Task}
    (heq : openStdFiles s.st (s.tasks t) = some (st', task')) :
    ∃ T' m', Sys.Shows (s.setTask t st' task') T' m' ∧ m₀.Starts t m' := by
  rw [Vfs.openStdFiles] at heq
  obtain ⟨⟨st₁, task₁⟩, heq₁, heq⟩ := Option.bind_eq_some_iff.1 heq
  obtain ⟨⟨st₂, task₂⟩, heq₂, heq₃⟩ := Option.bind_eq_some_iff.1 heq
  obtain ⟨T₁, m₁, hs₁, hstart₁⟩ := hs.openStd hstart heq₁
  obtain ⟨T₂, m₂, hs₂, hstart₂⟩ := hs₁.openStd hstart₁ (by rw [Sys.tasks_setTask]; exact heq₂)
  rw [Sys.setTask_setTask] at hs₂
  obtain ⟨T₃, m₃, hs₃, hstart₃⟩ := hs₂.openStd hstart₂ (by rw [Sys.tasks_setTask]; exact heq₃)
  rw [Sys.setTask_setTask] at hs₃
  exact ⟨T₃, m₃, hs₃, hstart₃⟩

/-- The table of a task is cleared. -/
theorem Sys.Shows.clear (hs : s.Shows T m) {task : Task} (htask : ∀ j, task.fdTable j = 0)
    (hinv : (s.setTask t s.st task).Inv T) :
    (s.setTask t s.st task).Shows T ⟨m.content, fun d => if d.1 = t then none else m.handle d⟩ := by
  have hslot : ∀ u j, ((s.setTask t s.st task).tasks u).fdTable j =
      if u = t then 0 else (s.tasks u).fdTable j := by
    intro u j
    by_cases hu : u = t
    · rw [if_pos hu, hu, Sys.tasks_setTask, htask]
    · rw [if_neg hu, s.tasks_setTask_of_ne _ _ hu]
  refine ⟨hinv, hs.stored, fun u j hne => ?_, fun u j => ?_⟩ <;> rw [hslot] at *
  · split_ifs at hne ⊢ with hu
    · exact absurd rfl hne
    · exact hs.noData u j hne
  · dsimp only
    split_ifs
    · exact Or.inl rfl
    · exact hs.handle u j

theorem Sys.Shows.start (hs : s.Shows T m) {task : Option Task} (heq : threadCreate s.st = some (st', task)) :
    ∃ T' m', Sys.Shows (match task with
      | none => ⟨st', s.tasks⟩
      | some task => s.setTask t st' task) T' m' ∧ FileStore.Allows m (.start t) x [] m' := by
  rcases threadCreate_cases hs.inv.tree.heap with ⟨st₁, hfail, hext⟩ | ⟨st₁, bs, hext, hmap⟩
  · rw [hfail] at heq
    obtain ⟨rfl, rfl⟩ := Prod.mk.inj (Option.some.inj heq)
    exact ⟨T, m, hs.filesStep (FilesStep.extend hs.inv.tree hs.stored hext), rfl, rfl, Or.inl rfl⟩
  · rw [hmap] at heq
    obtain ⟨⟨st₂, task₂⟩, hfiles, heq⟩ := Option.map_eq_some_iff.1 heq
    obtain ⟨rfl, rfl⟩ := Prod.mk.inj heq
    have hs₁ := hs.filesStep (FilesStep.extend hs.inv.tree hs.stored hext)
    have hinv : ((Sys.mk st₁ s.tasks).setTask t st₁ ⟨st₁.root, fun _ => 0⟩).Inv T :=
      hs₁.inv.replace t (Or.inr hs₁.inv.tree.root) fun _ => rfl
    have hclear := hs₁.clear (fun _ => rfl) hinv
    have hstart : m.Starts t ⟨m.content, fun d => if d.1 = t then none else m.handle d⟩ :=
      ⟨rfl, fun u i hu => if_neg hu, fun i => Or.inl (if_pos rfl)⟩
    obtain ⟨T', m', hs₂, hstart₂⟩ := hclear.openStdFiles hstart (by rw [Sys.tasks_setTask]; exact hfiles)
    rw [Sys.setTask_setTask] at hs₂
    exact ⟨T', m', hs₂, rfl, hstart₂.content, Or.inr ⟨hstart₂.other, hstart₂.own⟩⟩

theorem Sys.Shows.fork (hs : s.Shows T m) {held : ℕ × Task} (hclean : s.Clean held.2)
    (heq : s.step (.fork t held) = some (s', x)) :
    ∃ m', s'.Shows T m' ∧ FileStore.Allows m (.fork t held) x [] m' := by
  obtain ⟨st₁, bs, hext, rfl | rfl⟩ := Sys.fork_cases hs.inv.tree.heap heq
  · exact ⟨m, hs.filesStep (FilesStep.extend hs.inv.tree hs.stored hext), rfl, rfl, Or.inl rfl⟩
  · have hs₁ := hs.filesStep (FilesStep.extend hs.inv.tree hs.stored hext)
    have hinv := hs₁.inv.replace t (hclean.cwd hs.inv) hclean.2
    exact ⟨_, hs₁.clear hclean.2 hinv, rfl, rfl, Or.inr rfl⟩

theorem Sys.Shows.reap (hs : s.Shows T m) (t : ℕ) {th : Thread} (hh : s.st.HasThread th) :
    ∃ m', (s.setTask t (Vfs.reap s.st th) Task.idle).Shows T m' ∧
      FileStore.Allows m (.reap t th) x [] m' := by
  obtain ⟨hkernel, huser, htask⟩ := hh.offTree hs.inv.tree
  have hs₁ := hs.filesStep (FilesStep.offTree hs.inv.tree hs.stored hkernel)
  have hs₂ := hs₁.filesStep (FilesStep.offTree hs₁.inv.tree hs₁.stored (huser.free _))
  have hs₃ := hs₂.filesStep (FilesStep.offTree hs₂.inv.tree hs₂.stored ((htask.free _).free _))
  exact ⟨_, hs₃.clear (fun _ => rfl) (hs₃.inv.replace t (Or.inl rfl) fun _ => rfl), rfl, rfl, rfl⟩

theorem Sys.Shows.mkdir (hs : s.Shows T m) (t : ℕ) (path : UserPath) :
    ∃ T', Sys.Shows ⟨(sysMkdir s.st (s.tasks t) path).1, s.tasks⟩ T' m := by
  rw [sysMkdir]
  split_ifs
  · exact ⟨T, hs⟩
  obtain ⟨T', hf⟩ := vfsMkdir_files hs.inv.tree hs.stored (hs.inv.cwd t) path.nul
  exact ⟨T', hs.filesStep hf⟩

theorem Sys.Shows.mount (hs : s.Shows T m) (t : ℕ) {target filesystem : UserPath}
    (hready : RootClear s.st target.text filesystem.text) :
    ∃ T', Sys.Shows ⟨(sysMount s.st (s.tasks t) target filesystem).1, s.tasks⟩ T' m := by
  rw [sysMount]
  split_ifs
  · exact ⟨T, hs⟩
  obtain ⟨T', hf⟩ := vfsMount_files hs.inv.tree hs.stored (hs.inv.cwd t) target.nul
    hready
  exact ⟨T', hs.filesStep hf⟩

theorem vfsLookup_files {p : List UInt8} (h : Tree st T) (hc : Stored st T c) (cells : Cells)
    (hnul : (0 : UInt8) ∉ p) : FilesStep st (vfsLookup st cells .cwd (some p)).1 T T c c := by
  by_cases hcopy : CopyOk st p
  · have hf := FilesStep.extend h hc (afterLookup_extends h.heap hcopy)
    rw [vfsLookup_eq hnul hcopy]
    split_ifs <;> exact hf
  · have hcopy' : (strdup st p).2 = 0 := not_not.1 hcopy
    simp only [vfsLookup, if_pos hcopy']
    exact FilesStep.extend h hc (strdup_extends h.heap hcopy)

theorem Sys.Shows.chdir (hs : s.Shows T m) (t : ℕ) (path : UserPath) :
    Sys.Shows (s.setTask t (sysChdir s.st (s.tasks t) path).1 (sysChdir s.st (s.tasks t) path).2.1) T m := by
  have hinv := (hs.inv.chdir t path).inv
  rw [sysChdir] at hinv ⊢
  split_ifs at hinv ⊢ with hmissing
  · rwa [Sys.setTask_same]
  have hs' := hs.filesStep (vfsLookup_files hs.inv.tree hs.stored ⟨(s.tasks t).cwd, 0⟩ path.nul)
  have hslot : ∀ (st' : State) (cwd u : ℕ),
      ((s.setTask t st' { s.tasks t with cwd := cwd }).tasks u).fdTable = (s.tasks u).fdTable := by
    intro st' cwd u
    by_cases hu : u = t
    · rw [hu, Sys.tasks_setTask]
    · rw [s.tasks_setTask_of_ne _ _ hu]
  refine ⟨hinv, hs'.stored, fun u j => ?_, fun u j => ?_⟩ <;> rw [hslot]
  · exact hs'.noData u j
  · exact hs'.handle u j

theorem Sys.Shows.mknod (hs : s.Shows T m) {ops : FileOps} (hdev : ops = .uart ∨ ops = .framebuffer)
    (heq : vfsMknod s.st (s.tasks t).cwd (some path.text) (some ops) = some (st', x)) :
    ∃ T' m', Sys.Shows ⟨st', s.tasks⟩ T' m' ∧ FileStore.Allows m (.mknod t path ops) x [] m' := by
  rw [vfsMknod] at heq
  obtain ⟨⟨st₁, ret, dev⟩, hopen, heq⟩ := Option.bind_eq_some_iff.1 heq
  obtain ⟨T', c', hf, hone, -, ⟨hr, rfl⟩ | ⟨rfl, v, hv, hnew, hno⟩⟩ :=
    vfsOpen_files hs.inv.tree hs.stored (hs.inv.cwd t) path.nul hopen
  · simp only [if_pos hr.ne] at heq
    obtain ⟨rfl, -⟩ := Prod.mk.inj (Option.some.inj heq)
    exact ⟨T', _, hs.filesStep hf, rfl, hone, rfl⟩
  · simp only [if_neg (not_not.2 (rfl : (0 : ℤ) = 0)), hnew.file] at heq
    have hset := FilesStep.setFOps hf.grows.tree hv hdev hf.stored
    have hs' := hs.filesStep (hf.trans hset)
    have hfree : ∀ u j, (s.tasks u).fdTable j ≠ 0 → (s.tasks u).fdTable j ≠ dev := fun u j hne =>
      hnew.fresh _ (hs.inv.handle u j hne).live
    have hclosed := hs'.closed hfree (Or.inr hnew.live) (hset.noData dev hnew.live hno)
    rw [congrArg Prod.fst (Option.some.inj heq)] at hclosed
    exact ⟨T', _, hclosed, rfl, hone, rfl⟩

theorem Sys.Shows.fill (hs : s.Shows T m) {entries : List Entry} (hfits : ∀ e ∈ entries, e.Fits)
    (hroot : s.Fits (.fill t path entries))
    (heq : initramfsInit (lookupPath s.st (s.tasks t).cwd path.text).1
      (lookupPath s.st (s.tasks t).cwd path.text).2.2 entries = some st') :
    ∃ T' m', Sys.Shows ⟨st', s.tasks⟩ T' m' ∧ FileStore.Allows m (.fill t path entries) x [] m' := by
  obtain ⟨hops, hmark⟩ := hroot
  have hext := (lookupPath_extends hs.inv.tree.heap path.nul (s.tasks t).cwd).1
  have hf := FilesStep.extend hs.inv.tree hs.stored hext
  rcases (hs.inv.tree.lookupPath_mem (hs.inv.cwd t) path.nul).2 with h0 | hv
  · rw [h0, initramfsInit, if_pos rfl] at heq
    cases heq
  by_cases hcopy : CopyOk s.st path.text
  swap
  · rw [lookupPath_no_copy hcopy, initramfsInit, if_pos rfl] at heq
    cases heq
  have htarget : (lookupPath s.st (s.tasks t).cwd path.text).2.2 =
      leftoverPath s.st (s.tasks t).cwd path.text := by rw [lookupPath_spec path.nul hcopy]
  rw [htarget] at heq hv
  have hsame := hext.vnode _ (hs.inv.tree.vnode _ hv)
  obtain ⟨T', c', hf', hadds⟩ := initramfsInit_files hf.grows.tree hf.stored hv (by rw [hsame]; exact hops)
    (by rw [hsame]; exact hmark) (fun e he => (hfits e he).2) heq
  exact ⟨T', _, hs.filesStep (hf.trans hf'), rfl, hadds, rfl⟩

/-- A step of the system is one of the store. -/
theorem Sys.Shows.step (hs : s.Shows T m) {j : SysOp × ℤ × List UInt8} (hdoes : s.Does j s') :
    ∃ T' m', s'.Shows T' m' ∧ m.Step j m' := by
  obtain ⟨op, x, out⟩ := j
  obtain ⟨hvalid, hfits, heq, hout⟩ := hdoes
  change s.delivered op = out at hout
  subst hout
  cases op with
  | «open» t path flags =>
      obtain ⟨⟨st', task', x'⟩, hopen, heq⟩ := Option.bind_eq_some_iff.1 heq
      obtain ⟨rfl, rfl⟩ := Prod.mk.inj (Option.some.inj heq)
      exact hs.open hopen
  | close t fd =>
      obtain ⟨rfl, rfl⟩ := Prod.mk.inj (Option.some.inj heq)
      exact ⟨T, hs.close t fd⟩
  | write t fd buf =>
      obtain ⟨⟨st', x'⟩, hwrite, heq⟩ := Option.bind_eq_some_iff.1 heq
      obtain ⟨rfl, rfl⟩ := Prod.mk.inj (Option.some.inj heq)
      exact ⟨T, hs.write hfits hwrite⟩
  | read t fd buf count port =>
      obtain ⟨⟨st', x', out⟩, hread, heq⟩ := Option.bind_eq_some_iff.1 heq
      obtain ⟨rfl, rfl⟩ := Prod.mk.inj (Option.some.inj heq)
      rw [Sys.delivered, hread]
      exact ⟨T, hs.read hfits hread⟩
  | lseek t fd offset whence =>
      obtain ⟨rfl, rfl⟩ := Prod.mk.inj (Option.some.inj heq)
      exact ⟨T, hs.lseek hfits.1 hfits.2⟩
  | mkdir t path =>
      obtain ⟨rfl, -⟩ := Prod.mk.inj (Option.some.inj heq)
      obtain ⟨T', hs'⟩ := hs.mkdir t path
      exact ⟨T', m, hs', rfl, rfl⟩
  | mount t target filesystem =>
      obtain ⟨rfl, -⟩ := Prod.mk.inj (Option.some.inj heq)
      obtain ⟨T', hs'⟩ := hs.mount t hvalid
      exact ⟨T', m, hs', rfl, rfl⟩
  | chdir t path =>
      obtain ⟨rfl, -⟩ := Prod.mk.inj (Option.some.inj heq)
      exact ⟨T, m, hs.chdir t path, rfl, rfl⟩
  | start t =>
      obtain ⟨⟨st', task⟩, hstart, heq⟩ := Option.bind_eq_some_iff.1 heq
      obtain ⟨T', m', hs', hallows⟩ := hs.start (t := t) (x := x) hstart
      cases task with
      | none =>
          obtain ⟨rfl, -⟩ := Prod.mk.inj (Option.some.inj heq)
          exact ⟨T', m', hs', hallows⟩
      | some task =>
          obtain ⟨rfl, -⟩ := Prod.mk.inj (Option.some.inj heq)
          exact ⟨T', m', hs', hallows⟩
  | fork t held => exact ⟨T, hs.fork hvalid heq⟩
  | reap t th =>
      obtain ⟨rfl, rfl⟩ := Prod.mk.inj (Option.some.inj heq)
      exact ⟨T, hs.reap t hvalid⟩
  | register name ops =>
      obtain ⟨st', hreg, heq⟩ := Option.bind_eq_some_iff.1 heq
      obtain ⟨rfl, -⟩ := Prod.mk.inj (Option.some.inj heq)
      exact ⟨T, m, hs.filesStep (registerBackend_files hs.inv.tree hs.stored hreg), rfl, rfl⟩
  | mknod t path ops =>
      obtain ⟨⟨st', ret⟩, hmknod, heq⟩ := Option.bind_eq_some_iff.1 heq
      obtain ⟨rfl, rfl⟩ := Prod.mk.inj (Option.some.inj heq)
      exact hs.mknod hvalid hmknod
  | fill t path entries =>
      obtain ⟨st', hfill, heq⟩ := Option.bind_eq_some_iff.1 heq
      obtain ⟨rfl, rfl⟩ := Prod.mk.inj (Option.some.inj heq)
      exact hs.fill hvalid.1 hfits hfill

/-- The tree starts without a file. -/
theorem Sys.Initial.shows (h : s.Initial) : ∃ T, s.Shows T OpenFiles.empty := by
  obtain ⟨st, hb, heq, htasks⟩ := h
  obtain ⟨r, htree, -, -, -, -, -, hdir⟩ := mountRoot_tree hb heq
  have hempty : ∀ t i, (s.tasks t).fdTable i = 0 := fun t i => by
    rw [htasks]
    rfl
  have hcwd : ∀ t, (s.tasks t).cwd = 0 := fun t => by
    rw [htasks]
    rfl
  have hnone : ∀ v ∈ ({r} : Set ℕ), ¬ IsFile s.st v := by
    rintro v rfl ⟨htype, -⟩
    rw [hdir] at htype
    cases htype
  have hinv : s.Inv {r} := ⟨htree, fun t => Or.inl (hcwd t), fun t i hne => absurd (hempty t i) hne,
    fun t i u j hne => absurd (hempty t i) hne⟩
  have hstored : Stored s.st {r} fun _ => none :=
    ⟨fun v x hx => (nomatch hx), fun v hv hf => absurd hf (hnone v hv), fun v w hv => absurd rfl hv⟩
  exact ⟨{r}, hinv, hstored, fun t i hne => absurd (hempty t i) hne, fun t i => Or.inl (hempty t i)⟩

theorem Sys.Shows.run (hs : s₀.Shows T m) (hrun : Runs.Trace Sys.Does s₀ l s) :
    ∃ T' m', s.Shows T' m' ∧ Runs.Trace FileStore.Step m l m' := by
  have hsim : Runs.Simulates Sys.Does FileStore.Step fun s m => ∃ T, s.Shows T m := by
    rintro s j s' m ⟨T, hs⟩ hdoes
    obtain ⟨T', m', hs', hstep⟩ := hs.step hdoes
    exact ⟨m', ⟨T', hs'⟩, hstep⟩
  obtain ⟨m', ⟨T', hs'⟩, htrace⟩ := hsim.run ⟨T, hs⟩ hrun
  exact ⟨T', m', hs', htrace⟩

/-- Every run of the system calls by any tasks is a run of the store with the same results and the same bytes
delivered, and in the end the tables and the blocks of all files show the store. -/
theorem calls_refine_store (h0 : s₀.Initial) (hrun : Runs.Trace Sys.Does s₀ l s) :
    ∃ T m, s.Shows T m ∧ Runs.Trace FileStore.Step OpenFiles.empty l m := by
  obtain ⟨T, hs⟩ := h0.shows
  exact hs.run hrun

theorem Sys.does_after (s : Sys) {op : SysOp} (h : (s.step op).isSome) (hx : ((s.step op).get h).2 = x)
    (hvalid : s.Valid op) (hfits : s.Fits op) (hout : s.delivered op = out) :
    s.Does (op, x, out) (s.after op h) := by
  refine ⟨hvalid, hfits, ?_, hout⟩
  rw [← hx]
  exact (Option.some_get h).symm

theorem Sys.blank_initial : Sys.blank.Initial :=
  ⟨State.blank, ⟨⟨List.Pairwise.nil, nofun, nofun⟩, rfl⟩, (Option.some_get State.blank_mounts).symm,
    fun _ => rfl⟩

def openCalls : List (SysOp × ℤ × List UInt8) :=
  [(.mkdirA, 0, []), (.chdirRoot, 0, []), (.openF, 0, [])]

theorem Sys.blank_opens : Runs.Trace Sys.Does Sys.blank openCalls Sys.withFile :=
  ((Runs.Trace.nil.snoc (Sys.blank.does_after Sys.blank_mkdirA (by decide) trivial trivial rfl)).snoc
    (Sys.withDir.does_after Sys.withDir_chdirRoot (by decide) trivial trivial rfl)).snoc
    (Sys.inRoot.does_after Sys.inRoot_openF (by decide) trivial trivial rfl)

def SysOp.readRest : SysOp := .read 0 0 true 5 []

theorem Sys.file_results : ((Sys.withFile.step .writeF).get Sys.withFile_writeF).2 = 2 ∧
    ((Sys.written.step .seekOne).get Sys.written_seekOne).2 = 0 ∧
    (Sys.atOne.step .readRest).map Prod.snd = some 1 ∧ Sys.atOne.delivered .readRest = [2] ∧
    (Sys.atOne.st.files Sys.atOne.firstFile).fPos + 5 < 2 ^ 64 := by
  decide

theorem Sys.withFile_does : Sys.withFile.Does (.writeF, 2, []) Sys.written := by
  refine Sys.withFile.does_after Sys.withFile_writeF Sys.file_results.1 trivial ?_ rfl
  rintro bytes hb
  obtain rfl := Option.some.inj hb
  decide

/-- The file gets two bytes, and the position goes between them. -/
def useCalls : List (SysOp × ℤ × List UInt8) := openCalls ++ [(.writeF, 2, []), (.seekOne, 0, [])]

theorem Sys.blank_uses : Runs.Trace Sys.Does Sys.blank useCalls Sys.atOne :=
  (Sys.blank_opens.snoc Sys.withFile_does).snoc
    (Sys.written.does_after Sys.written_seekOne Sys.file_results.2.1 trivial ⟨by decide, by decide⟩ rfl)

def Sys.next (s : Sys) (op : SysOp) : Sys := ((s.step op).map Prod.fst).getD s

theorem Sys.does_next (s : Sys) {op : SysOp} (hx : (s.step op).map Prod.snd = some x) (hvalid : s.Valid op)
    (hfits : s.Fits op) (hout : s.delivered op = out) : s.Does (op, x, out) (s.next op) := by
  obtain ⟨⟨s', x'⟩, hs, rfl⟩ := Option.map_eq_some_iff.1 hx
  refine ⟨hvalid, hfits, ?_, hout⟩
  rw [Sys.next, hs]
  rfl

theorem Sys.fits_read {s : Sys} {buf : Bool} {count : ℕ} {port : List UInt8}
    (h : (s.st.files s.firstFile).fPos + count < 2 ^ 64) : s.Fits (.read 0 0 buf count port) := by
  intro i hi
  obtain rfl := Option.some.inj (show some (⟨0, threadMaxFd_pos⟩ : Fin threadMaxFd) = some i from hi)
  exact h

theorem Sys.atOne_reads : Sys.atOne.Does (.readRest, 1, [2]) (Sys.atOne.next .readRest) :=
  Sys.atOne.does_next Sys.file_results.2.2.1 trivial (Sys.fits_read Sys.file_results.2.2.2.2)
    Sys.file_results.2.2.2.1

theorem calls_refine_store_read :
    ∃ T m, (Sys.atOne.next .readRest).Shows T m ∧
      Runs.Trace FileStore.Step OpenFiles.empty (useCalls ++ [(.readRest, 1, [2])]) m :=
  calls_refine_store Sys.blank_initial (Sys.blank_uses.snoc Sys.atOne_reads)

end OscKernel.Vfs
