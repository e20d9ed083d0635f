import OscKernel.FileData

/-!
# What the calls do to the files

Only a creation by `vfs_open` and the entries of an archive make files. All else that the calls do to the tree
leaves the files as they are.
-/

namespace OscKernel.Vfs

open OpenFiles (Adds OneMore)

variable {st st₁ st' : State} {T T' : Set ℕ} {c c' : Contents} {v cwd file root : ℕ} {r : ℤ}
  {path : List UInt8} {flags : BitVec 32} {bs : List (ℕ × ℕ)} {entries : List Entry}

/-- An empty file of the memory file system. -/
def newFile : VnodeOps × List UInt8 := (.tmpfs, [])

def Entry.asFile (e : Entry) : VnodeOps × List UInt8 := (.initramfs, e.data)

theorem NoData.extend (h : Tree st T) (hc : Stored st T c) (he : Extends st st' bs) (hn : NoData st c v) :
    NoData st' c v := by
  refine hn.congr (fun _ hw => hw) fun w hw hcap => Or.inl ?_
  have hsame := h.ownNodes.internal he (hc.mem hw).1
  rw [hsame] at hcap ⊢
  exact ⟨hcap, rfl⟩

theorem vfsOpenVnode_files (h : Tree st T) (hc : Stored st T c) (hv : v ∈ T)
    (heq : vfsOpenVnode st flags v = some (st', r, file)) :
    FilesStep st st' T T c c ∧
      (r < 0 ∧ file = 0 ∨ r = 0 ∧ NewHandle st st' file v flags ∧ NoData st' c file) := by
  obtain ⟨ops, hops, ⟨st₁, r₁, bs, heq₁, hr, hopens, -⟩ | ⟨st₁, f, bs, heq₁, hopens, hfile, -⟩⟩ :=
    vfsOpenVnode_cases h hv flags
  · rw [heq₁] at heq
    obtain ⟨rfl, rfl, rfl⟩ : st₁ = st' ∧ r₁ = r ∧ 0 = file := by simpa using heq
    exact ⟨FilesStep.extend h hc hopens.extend, Or.inl ⟨hr, rfl⟩⟩
  · rw [heq₁] at heq
    obtain ⟨rfl, rfl, rfl⟩ : st₁ = st' ∧ 0 = r ∧ f = file := by simpa using heq
    have hnew := hopens.newHandle hfile hops
    exact ⟨FilesStep.extend h hc hopens.extend,
      Or.inr ⟨rfl, hnew, (hc.noData_of_fresh hnew.fresh).extend h hc hopens.extend⟩⟩

/-- `vfs_open` makes at most one file, and a handle whose block has no data. -/
theorem vfsOpen_files (h : Tree st T) (hc : Stored st T c) (hcwd : cwd = 0 ∨ cwd ∈ T)
    (hnul : (0 : UInt8) ∉ path) {target : ℕ}
    (heq : vfsOpen st cwd (some path) flags target = some (st', r, file)) :
    ∃ T' c', FilesStep st st' T T' c c' ∧ OneMore newFile c c' ∧ (¬ oCreat flags → c' = c) ∧
      (r < 0 ∧ file = 0 ∨ r = 0 ∧ ∃ v ∈ T', NewHandle st st' file v flags ∧ NoData st' c' file) := by
  obtain ⟨hext, -⟩ := lookupPath_extends h.heap hnul cwd
  obtain ⟨hok, hleft⟩ := h.lookupPath_mem hcwd hnul
  have hneg : (lookupPath st cwd path).2.1 ≤ 0 := by
    by_cases hcopy : CopyOk st path
    · rw [lookupPath_spec hnul hcopy]
      change code (resolvePath st cwd path) ≤ 0
      cases hr : resolvePath st cwd path with
      | error c => exact (resolvePath_error hr).le
      | ok v => exact le_rfl
    · rw [lookupPath_no_copy hcopy]
      exact (by decide : enomem ≤ 0)
  rcases hlook : lookupPath st cwd path with ⟨st₁, r₁, v⟩
  rw [hlook] at hext hok hleft hneg
  have hs := FilesStep.extend h hc hext
  have h₁ := hs.grows.tree
  by_cases hr : r₁ = 0
  · subst hr
    have hstep : vfsOpenVnode st₁ flags v = some (st', r, file) := by
      rw [← heq]
      simp only [vfsOpen, hlook, if_neg (not_not.2 rfl)]
    obtain ⟨hs', hend⟩ := vfsOpenVnode_files h₁ hs.stored (hok rfl) hstep
    refine ⟨T, c, hs.trans hs', Or.inl rfl, fun _ => rfl, hend.imp_right ?_⟩
    rintro ⟨h0, hnew, hno⟩
    exact ⟨h0, v, hok rfl, hnew.of_extends hext, hno⟩
  by_cases hcreat : oCreat flags
  swap
  · have hstep : some (st₁, r₁, 0) = some (st', r, file) := by
      rw [← heq]
      simp only [vfsOpen, hlook, if_pos hr, if_neg hcreat]
    obtain ⟨rfl, rfl, rfl⟩ : st₁ = st' ∧ r₁ = r ∧ 0 = file := by simpa using hstep
    exact ⟨T, c, hs, Or.inl rfl, fun _ => rfl, Or.inl ⟨lt_of_le_of_ne hneg hr, rfl⟩⟩
  rcases vfsOpenCreate_cases h₁ hcwd hnul v with
    ⟨st₂, r₂, heq₂, hr₂, hext₂⟩ | ⟨st₂, w, heq₂, hext₂, hw⟩ | ⟨st₂, dir, w, heq₂, hdir, -, -, hd⟩
  · have hstep : some (st₂, r₂, 0) = some (st', r, file) := by
      rw [← heq]
      simp only [vfsOpen, hlook, if_pos hr, if_pos hcreat, heq₂]
    obtain ⟨rfl, rfl, rfl⟩ : st₂ = st' ∧ r₂ = r ∧ 0 = file := by simpa using hstep
    exact ⟨T, c, hs.trans (FilesStep.extend h₁ hs.stored hext₂), Or.inl rfl, fun _ => rfl,
      Or.inl ⟨hr₂, rfl⟩⟩
  -- The backend was called: it has refused, or the file is new.
  all_goals
    have hstep : vfsOpenVnode st₂ flags w = some (st', r, file) := by
      rw [← heq]
      simp only [vfsOpen, hlook, if_pos hr, if_pos hcreat, heq₂]
  · have hw0 : w ≠ 0 := by
      rintro rfl
      rw [vfsOpenVnode] at hstep
      cases hstep
    have hwT : w ∈ T := by
      rcases hw with rfl | rfl
      · exact absurd rfl hw0
      · exact hleft.resolve_left hw0
    have hs₂ := hs.trans (FilesStep.extend h₁ hs.stored hext₂)
    obtain ⟨hs', hend⟩ := vfsOpenVnode_files hs₂.grows.tree hs₂.stored hwT hstep
    refine ⟨T, c, hs₂.trans hs', Or.inl rfl, fun _ => rfl, hend.imp_right ?_⟩
    rintro ⟨h0, hnew, hno⟩
    exact ⟨h0, w, hwT, hnew.of_extends (hext.trans hext₂), hno⟩
  · obtain ⟨hmade, hnone⟩ := hd.filesStep_file h₁ hdir hs.stored
    have hs₂ := hs.trans hmade
    obtain ⟨hs', hend⟩ := vfsOpenVnode_files hs₂.grows.tree hs₂.stored (Set.mem_insert ..) hstep
    refine ⟨_, _, hs₂.trans hs', Or.inr (Adds.cons hnone (Adds.nil _)), fun hno => absurd hcreat hno,
      hend.imp_right ?_⟩
    rintro ⟨h0, hnew, hno⟩
    refine ⟨h0, w, Set.mem_insert .., ?_, hno⟩
    obtain ⟨-, st₃, n, data, -, rfl, hext₃, -⟩ := hd
    have hnew' : NewHandle st₃ st' file w flags := ⟨hnew.ne_zero, hnew.fresh, hnew.live, hnew.file⟩
    exact hnew'.of_extends (hext.trans hext₃)

theorem vfsMkdir_files (h : Tree st T) (hc : Stored st T c) (hcwd : cwd = 0 ∨ cwd ∈ T)
    (hnul : (0 : UInt8) ∉ path) :
    ∃ T', FilesStep st (vfsMkdir st cwd (some path)).1 T T' c c := by
  rcases vfsMkdir_cases h hcwd hnul with ⟨st', r, heq, -, hext⟩ | ⟨st', dir, v, heq, hdir, -, -, hd⟩
  · rw [heq]
    exact ⟨T, FilesStep.extend h hc hext⟩
  · rw [heq]
    exact ⟨_, hd.filesStep_directory h hdir hc⟩

theorem vfsMount_files (h : Tree st T) (hc : Stored st T c) (hcwd : cwd = 0 ∨ cwd ∈ T)
    (hnul : (0 : UInt8) ∉ path) {name : List UInt8} (hready : RootClear st path name) :
    ∃ T', FilesStep st (vfsMount st cwd (some path) (some name)).1 T T' c c := by
  rcases vfsMount_cases h hcwd hnul hready with
    ⟨st', r, heq, -, hext⟩ | ⟨st', v, m, r, n, fs, ops, heq, -, -, hres, hmount, hparent, -, hm⟩
  · rw [heq]
    exact ⟨T, FilesStep.extend h hc hext⟩
  · rw [heq]
    have hroot : v ≠ st.root := by
      rintro rfl
      rw [h.rootMount.2] at hparent
      cases hparent
    exact ⟨_, hm.filesStep h (h.resolvePath_mem hcwd hres) hroot hmount hparent hc⟩

theorem registerBackend_files (h : Tree st T) (hc : Stored st T c) {name : List UInt8} {ops : VnodeOps}
    (hreg : registerBackend st name ops = some st') : FilesStep st st' T T c c := by
  have hg := registerBackend_grows h hreg
  rw [registerBackend] at hreg
  rcases State.alloc_cases h.heap (n := sizeofFilesystem) (by decide) with
    ⟨st₁, heq, -⟩ | ⟨st₁, f, heq, hf, -, hext, -⟩
  · simp only [heq, if_true] at hreg
    cases hreg
  simp only [heq, if_neg hf] at hreg
  have hs := FilesStep.extend h hc hext
  have hst := Option.some.inj hreg
  have hsame : ∀ w, SameFile st₁ st' w := by
    intro w
    rw [← hst]
    simp only [registerFilesystem, if_neg hf]
    split_ifs <;> exact ⟨Iff.rfl, rfl, id, rfl, rfl, rfl⟩
  have hkeep : st'.heap = st₁.heap ∧ st'.mem = st₁.mem ∧ st'.files = st₁.files := by
    rw [← hst]
    simp only [registerFilesystem, if_neg hf]
    split_ifs <;> exact ⟨rfl, rfl, rfl⟩
  obtain ⟨hheap, hmem, hfiles⟩ := hkeep
  refine ⟨hg, hs.stored.frame (fun w _ => hsame w) (fun w hw hcap => ?_) fun w _ a _ _ => congrFun hmem a,
    hs.old, fun p hp => (congrFun hfiles p).trans (hs.handle p hp), fun p hp hn => ?_⟩
  · obtain ⟨x, hx⟩ := Option.ne_none_iff_exists'.1 hw
    rw [hheap]
    exact (hs.stored.get hx).live hcap
  · refine (hs.noData p hp hn).congr (fun _ hw => hw) fun w _ hcap => Or.inl ?_
    rw [(hsame w).capacity] at hcap
    exact ⟨hcap, (hsame w).data⟩

/-- The rounds of `initramfs_init` add the entries one after the other. -/
theorem addEntries_files (h : Tree st T) (hc : Stored st T c) (hroot : root ∈ T)
    (hlen : ∀ e ∈ entries, e.data.length < 2 ^ 32)
    (heq : entries.foldlM (fun st e => initramfsAddEntry st root e) st = some st') :
    ∃ T' c', FilesStep st st' T T' c c' ∧ Adds (entries.map Entry.asFile) c c' := by
  induction entries generalizing st T c with
  | nil =>
      obtain rfl := Option.some.inj heq
      exact ⟨T, c, FilesStep.refl h hc, Adds.nil c⟩
  | cons e entries ih =>
      rw [List.foldlM_cons] at heq
      obtain ⟨st₁, hadd, heq⟩ := Option.bind_eq_some_iff.1 heq
      obtain ⟨v, ha⟩ := initramfsAddEntry_added h hroot (hlen e (List.mem_cons_self ..)) hadd
      obtain ⟨hs, hnone⟩ := ha.filesStep h hroot hc
      obtain ⟨T', c', hs', hadds⟩ := ih hs.grows.tree hs.stored (hs.grows.subset hroot)
        (fun e he => hlen e (List.mem_cons_of_mem _ he)) heq
      exact ⟨T', c', hs.trans hs', Adds.cons hnone hadds⟩

theorem initramfsInit_files (h : Tree st T) (hc : Stored st T c) (hroot : root ∈ T)
    (hops : (st.vnodes root).vOps = some .initramfs) (hmark : (st.vnodes root).parentIsMount = true)
    (hlen : ∀ e ∈ entries, e.data.length < 2 ^ 32) (heq : initramfsInit st root entries = some st') :
    ∃ T' c', FilesStep st st' T T' c c' ∧ Adds (entries.map Entry.asFile) c c' := by
  rw [initramfsInit, if_neg (h.ne_zero hroot)] at heq
  have hs := FilesStep.setDirectory h hroot hops hmark hc
  obtain ⟨T', c', hs', hadds⟩ := addEntries_files hs.grows.tree hs.stored hroot hlen heq
  exact ⟨T', c', hs.trans hs', hadds⟩

end OscKernel.Vfs
