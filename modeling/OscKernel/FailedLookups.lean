import OscKernel.VfsSystem

/-!
# What a failed lookup leaves

`vfs_lookup` clears its target before it walks, and every `..` that leads up writes it. So a lookup that
fails behind such a `..` leaves a vnode in the target.
-/

namespace OscKernel.Vfs

variable {st : State} {T : Set ℕ} {current t : ℕ} {names : List (List UInt8)}

/-- The walk takes `..` from a vnode that is not the root, and fails later. -/
def FailsBehindUp (st : State) (current : ℕ) (names : List (List UInt8)) : Prop :=
  ∃ p q v u c, names = p ++ dotDotName :: q ∧ resolve st current p = .ok v ∧ v ≠ st.root ∧
    walkUp st v = .ok u ∧ resolve st u q = .error c

theorem walkComponent_dotDot (v : ℕ) : walkComponent st v dotDotName = walkUp st v := by
  rw [walkComponent, if_neg (by decide), if_pos rfl]

theorem FailsBehindUp.cons {name : List UInt8} {u : ℕ} (h : FailsBehindUp st u names)
    (hstep : walkComponent st current name = .ok u) : FailsBehindUp st current (name :: names) := by
  obtain ⟨p, q, v, w, c, rfl, hp, hroot, hup, hq⟩ := h
  refine ⟨name :: p, q, v, w, c, rfl, ?_, hroot, hup, hq⟩
  rw [resolve_cons, hstep]
  exact hp

theorem leftover_of_not_behind {c : ℤ} (hno : ¬ FailsBehindUp st current names)
    (hres : resolve st current names = .error c) : leftover st names current t = t := by
  induction names generalizing current with
  | nil => cases hres
  | cons name names ih =>
      rw [resolve_cons] at hres
      rw [leftover]
      cases hstep : walkComponent st current name with
      | error c => rfl
      | ok u =>
          rw [hstep] at hres
          dsimp only
          have hup : ¬ (name = dotDotName ∧ current ≠ st.root) := by
            rintro ⟨rfl, hroot⟩
            rw [walkComponent_dotDot] at hstep
            exact hno ⟨[], names, current, u, c, rfl, rfl, hroot, hstep, hres⟩
          rw [if_neg hup]
          exact ih (fun hbehind => hno (hbehind.cons hstep)) hres

theorem leftover_append {p q : List (List UInt8)} {v : ℕ} (hp : resolve st current p = .ok v) :
    ∃ t', leftover st (p ++ q) current t = leftover st q v t' := by
  induction p generalizing current t with
  | nil => exact ⟨t, by rw [Except.ok.inj hp, List.nil_append]⟩
  | cons name p ih =>
      rw [resolve_cons] at hp
      cases hstep : walkComponent st current name with
      | error c => rw [hstep] at hp; cases hp
      | ok u =>
          rw [hstep] at hp
          simp only [List.cons_append, leftover, hstep]
          exact ih hp

/-- What is left is the vnode of the last `..` that led up. -/
theorem FailsBehindUp.leftover_mem (h : FailsBehindUp st current names) (htree : Tree st T)
    (hc : current ∈ T) : leftover st names current t ∈ T := by
  obtain ⟨p, q, v, u, c, rfl, hp, hroot, hup, -⟩ := h
  have hu := htree.walkUp_mem (htree.resolve_mem hc hp) hup
  obtain ⟨t', heq⟩ := leftover_append (t := t) (q := dotDotName :: q) hp
  rw [heq, leftover, walkComponent_dotDot, hup]
  dsimp only
  rw [if_pos ⟨rfl, hroot⟩]
  have hmem : leftover st q u u = u ∨ leftover st q u u ∈ T := htree.leftover_mem hu
  rcases hmem with hsame | hin
  · rw [hsame]
    exact hu
  · exact hin

theorem FailsBehindUp.resolve_error (h : FailsBehindUp st current names) :
    ∃ c, resolve st current names = .error c := by
  obtain ⟨p, q, v, u, c, rfl, hp, -, hup, hq⟩ := h
  refine ⟨c, ?_⟩
  rw [resolve_append, hp]
  change resolve st v (dotDotName :: q) = _
  rw [resolve_cons, walkComponent_dotDot, hup]
  exact hq

def FailedLookupLaw (st : State) (cells : Cells) (target : Target) (path : List UInt8) : Prop :=
  (vfsLookup st cells target (some path)).2.1 ≠ 0 →
    (vfsLookup st cells target (some path)).2.2.get target = 0

def LeavesVnode (st : State) (cells : Cells) (target : Target) (path : List UInt8) : Prop :=
  CopyOk st path ∧ (isAbsolute path ∨ (cells.set target 0).cwd ≠ 0) ∧
    FailsBehindUp st (startVnode st (cells.set target 0).cwd path) (components path)

theorem vfsLookup_no_copy {cells : Cells} {target : Target} {path : List UInt8}
    (hcopy : ¬ CopyOk st path) :
    (vfsLookup st cells target (some path)).2 = (enomem, cells.set target 0) := by
  have hcopy' : (strdup st path).2 = 0 := not_not.1 hcopy
  simp only [vfsLookup, if_pos hcopy']

theorem Tree.failedLookupLaw_iff {cells : Cells} {target : Target} {path : List UInt8} (h : Tree st T)
    (hcwd : cells.cwd = 0 ∨ cells.cwd ∈ T) (hnul : (0 : UInt8) ∉ path) :
    FailedLookupLaw st cells target path ↔ ¬ LeavesVnode st cells target path := by
  rw [FailedLookupLaw]
  by_cases hcopy : CopyOk st path
  swap
  · rw [vfsLookup_no_copy hcopy]
    exact iff_of_true (fun _ => Cells.get_set 0) fun h => hcopy h.1
  rw [vfsLookup_eq hnul hcopy]
  by_cases hnone : ¬ isAbsolute path ∧ (cells.set target 0).cwd = 0
  · rw [if_pos hnone]
    exact iff_of_true (fun _ => Cells.get_set 0) fun h => h.2.1.elim hnone.1 fun hne => hne hnone.2
  have hbegins : isAbsolute path ∨ (cells.set target 0).cwd ≠ 0 := by
    by_contra! hno
    exact hnone ⟨hno.1, hno.2⟩
  have hstart : startVnode st (cells.set target 0).cwd path ∈ T := by
    have hcwd' : (cells.set target 0).cwd = 0 ∨ (cells.set target 0).cwd ∈ T := by
      cases target with
      | cwd => exact Or.inl rfl
      | tmp => exact hcwd
    rw [startVnode]
    split_ifs with habs
    · exact h.root
    · exact hcwd'.resolve_left (hbegins.resolve_left habs)
  rw [if_neg hnone, LeavesVnode, and_iff_right hcopy, and_iff_right hbegins]
  dsimp only
  rw [Cells.get_set]
  constructor
  · intro hlaw hbehind
    obtain ⟨c, hres⟩ := hbehind.resolve_error
    rw [hres] at hlaw
    have hin := hbehind.leftover_mem (t := 0) h hstart
    exact h.ne_zero hin (hlaw (resolve_error hres).ne)
  · intro hno hcode
    cases hres : resolve st (startVnode st (cells.set target 0).cwd path) (components path) with
    | error c => exact leftover_of_not_behind hno hres
    | ok v =>
        rw [hres] at hcode
        exact absurd rfl hcode

/-- In every reachable state a lookup from the directory of a task, into that directory or into another
variable, obeys the law unless it fails behind a `..` that led up. -/
theorem failed_lookup_null_iff {s : Sys} (hs : s.Reachable) (task tmp : ℕ) (target : Target)
    {path : List UInt8} (hnul : (0 : UInt8) ∉ path) :
    FailedLookupLaw s.st ⟨(s.tasks task).cwd, tmp⟩ target path ↔
      ¬ LeavesVnode s.st ⟨(s.tasks task).cwd, tmp⟩ target path := by
  obtain ⟨T, hinv⟩ := hs.inv
  exact hinv.tree.failedLookupLaw_iff (hinv.cwd task) hnul

theorem failed_lookup_null_one :
    FailedLookupLaw Sys.inRoot.st ⟨(Sys.inRoot.tasks 0).cwd, 0⟩ .tmp [98] ↔
      ¬ LeavesVnode Sys.inRoot.st ⟨(Sys.inRoot.tasks 0).cwd, 0⟩ .tmp [98] :=
  failed_lookup_null_iff Sys.inRoot_reachable 0 0 .tmp (by decide)

/-- The path `/a/../b`: the lookup fails at `b` and leaves the root. -/
theorem failed_lookup_leaves_root :
    Sys.inRoot.Reachable ∧
      (vfsLookup Sys.inRoot.st ⟨(Sys.inRoot.tasks 0).cwd, 0⟩ .tmp
        (some [47, 97, 47, 46, 46, 47, 98])).2.1 = enoent ∧
      ¬ FailedLookupLaw Sys.inRoot.st ⟨(Sys.inRoot.tasks 0).cwd, 0⟩ .tmp
        [47, 97, 47, 46, 46, 47, 98] := by
  have hcode : (vfsLookup Sys.inRoot.st ⟨(Sys.inRoot.tasks 0).cwd, 0⟩ .tmp
      (some [47, 97, 47, 46, 46, 47, 98])).2.1 = enoent := by decide
  refine ⟨Sys.inRoot_reachable, hcode, fun hlaw => ?_⟩
  have hnull := hlaw (by rw [hcode]; decide)
  exact absurd hnull (by decide)

end OscKernel.Vfs
