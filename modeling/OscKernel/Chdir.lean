import OscKernel.VfsSystem

/-!
# Changing the directory

`sys_chdir` lets `vfs_lookup` write the field that the lookup reads as its starting point.
-/

namespace OscKernel.Vfs

variable {st : State} {task : Task} {path : UserPath}

def ChdirLaw (st : State) (task : Task) (path : UserPath) : Prop :=
  let look := lookupPath st task.cwd path.text
  let res := sysChdir st task path
  (look.2.1 = 0 → res.2.2 = 0 ∧ res.2.1.cwd = look.2.2) ∧
    (look.2.1 ≠ 0 → res.2.2 = look.2.1 ∧ res.2.1.cwd = task.cwd)

/-- The path is absolute, and it names a vnode unless the walk has come to the directory of the task by
its last `..` when it fails. -/
def ChdirWorks (st : State) (task : Task) (path : UserPath) : Prop :=
  CopyOk st path.text ∧ isAbsolute path.text ∧
    ((∃ v, resolvePath st task.cwd path.text = .ok v) ∨ leftoverPath st task.cwd path.text = task.cwd)

theorem sysChdir_no_copy (hmissing : ¬ path.missing) (hcopy : ¬ CopyOk st path.text) :
    (sysChdir st task path).2 = ({ task with cwd := 0 }, enomem) := by
  have hcopy' : (strdup st path.text).2 = 0 := not_not.1 hcopy
  simp only [sysChdir, if_neg hmissing, vfsLookup, if_pos hcopy']
  rfl

/-- A relative path is looked up from the null pointer that the lookup has just written. -/
theorem sysChdir_relative (hmissing : ¬ path.missing) (hcopy : CopyOk st path.text)
    (hrel : ¬ isAbsolute path.text) : (sysChdir st task path).2 = ({ task with cwd := 0 }, einterr) := by
  have hnone : ¬ isAbsolute path.text ∧ (Cells.set ⟨task.cwd, 0⟩ .cwd 0).cwd = 0 := ⟨hrel, rfl⟩
  simp only [sysChdir, if_neg hmissing, vfsLookup_eq path.nul hcopy, if_pos hnone]
  rfl

theorem sysChdir_absolute (hmissing : ¬ path.missing) (hcopy : CopyOk st path.text)
    (habs : isAbsolute path.text) :
    (sysChdir st task path).2 =
      ({ task with cwd := leftoverPath st task.cwd path.text },
        code (resolvePath st task.cwd path.text)) := by
  have hsome : ¬ (¬ isAbsolute path.text ∧ (Cells.set ⟨task.cwd, 0⟩ .cwd 0).cwd = 0) :=
    fun h => h.1 habs
  have hsome' : ¬ (¬ isAbsolute path.text ∧ task.cwd = 0) := fun h => h.1 habs
  have hstart : startVnode st (Cells.set ⟨task.cwd, 0⟩ .cwd 0).cwd path.text =
      startVnode st task.cwd path.text := by
    rw [startVnode, startVnode, if_pos habs, if_pos habs]
  simp only [sysChdir, if_neg hmissing, vfsLookup_eq path.nul hcopy, if_neg hsome, hstart]
  rw [leftoverPath, if_neg hsome', resolvePath, if_neg hsome']
  cases hres : resolve st (startVnode st task.cwd path.text) (components path.text) with
  | error c =>
      have hc : c < 0 := resolve_error hres
      exact Prod.ext rfl (if_pos hc)
  | ok v => rfl

/-- `sys_chdir` does what it is for exactly when `ChdirWorks`. -/
theorem sysChdir_correct_iff (st : State) (hcwd : task.cwd ≠ 0) (hmissing : ¬ path.missing) :
    ChdirLaw st task path ↔ ChdirWorks st task path := by
  by_cases hcopy : CopyOk st path.text
  swap
  · refine iff_of_false (fun hlaw => ?_) fun h => hcopy h.1
    have hlook := lookupPath_no_copy hcopy task.cwd
    have hstay := (hlaw.2 (by rw [hlook]; exact (by decide : enomem ≠ 0))).2
    rw [sysChdir_no_copy hmissing hcopy] at hstay
    exact hcwd hstay.symm
  have hspec := lookupPath_spec path.nul hcopy task.cwd
  by_cases habs : isAbsolute path.text
  swap
  · have hchdir : (sysChdir st task path).2 = _ := sysChdir_relative hmissing hcopy habs
    refine iff_of_false (fun hlaw => ?_) fun h => habs h.2.1
    by_cases h0 : (lookupPath st task.cwd path.text).2.1 = 0
    · have hcode := (hlaw.1 h0).1
      rw [hchdir] at hcode
      exact absurd (show einterr = 0 from hcode) (by decide)
    · have hstay := (hlaw.2 h0).2
      rw [hchdir] at hstay
      exact hcwd hstay.symm
  have hchdir : (sysChdir st task path).2 = _ := sysChdir_absolute hmissing hcopy habs
  have hworks : ChdirWorks st task path ↔ (∃ v, resolvePath st task.cwd path.text = .ok v) ∨
      leftoverPath st task.cwd path.text = task.cwd := ⟨fun h => h.2.2, fun h => ⟨hcopy, habs, h⟩⟩
  rw [hworks]
  dsimp only [ChdirLaw]
  rw [hspec, hchdir]
  cases hres : resolvePath st task.cwd path.text with
  | error c =>
      have hc : c ≠ 0 := (resolvePath_error hres).ne
      have hnone : ¬ ∃ v, Except.error c = Except.ok (ε := ℤ) (α := ℕ) v := by
        rintro ⟨v, hv⟩
        cases hv
      rw [or_iff_right hnone]
      exact ⟨fun h => (h.2 hc).2, fun h => ⟨fun h0 => absurd h0 hc, fun _ => ⟨rfl, h⟩⟩⟩
  | ok v => exact iff_of_true ⟨fun _ => ⟨rfl, rfl⟩, fun hne => absurd rfl hne⟩ (Or.inl ⟨v, rfl⟩)

/-- From the root, a change to the directory `/a` by its absolute path. -/
theorem sysChdir_correct_dir :
    ChdirLaw Sys.inRoot.st (Sys.inRoot.tasks 0) ⟨1, [47, 97], by decide⟩ ↔
      ChdirWorks Sys.inRoot.st (Sys.inRoot.tasks 0) ⟨1, [47, 97], by decide⟩ :=
  sysChdir_correct_iff Sys.inRoot.st (by decide) (by decide)

/-- From the root, the path `a` of a directory: the call fails and the task has no directory any more. -/
theorem sysChdir_relative_breaks :
    Sys.inRoot.Reachable ∧ (Sys.inRoot.tasks 0).cwd ≠ 0 ∧
      (lookupPath Sys.inRoot.st (Sys.inRoot.tasks 0).cwd [97]).2.1 = 0 ∧
      (sysChdir Sys.inRoot.st (Sys.inRoot.tasks 0) ⟨1, [97], by decide⟩).2.2 = einterr ∧
      (sysChdir Sys.inRoot.st (Sys.inRoot.tasks 0) ⟨1, [97], by decide⟩).2.1.cwd = 0 ∧
      ¬ ChdirLaw Sys.inRoot.st (Sys.inRoot.tasks 0) ⟨1, [97], by decide⟩ := by
  have hlook : (lookupPath Sys.inRoot.st (Sys.inRoot.tasks 0).cwd [97]).2.1 = 0 := by decide
  have hcode : (sysChdir Sys.inRoot.st (Sys.inRoot.tasks 0) ⟨1, [97], by decide⟩).2.2 = einterr := by
    decide
  refine ⟨Sys.inRoot_reachable, by decide, hlook, hcode, by decide, fun hlaw => ?_⟩
  have hzero := (hlaw.1 hlook).1
  rw [hcode] at hzero
  exact absurd hzero (by decide)

end OscKernel.Vfs
