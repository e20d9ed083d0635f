import OscKernel.VfsSystem

/-!
# Lookup composes

The lookup of `p/q` is the lookup of `q` from the vnode of `p`, and slashes and `.` components may be
inserted into a path.
-/

namespace OscKernel.Vfs

open Relation

variable {st : State} {s : Sys} {T : Set ℕ} {cwd v t : ℕ} {p q a b path : List UInt8}

theorem components_append (p q : List UInt8) :
    components (p ++ slash :: q) = components p ++ components q := by
  rw [components, CStrings.tokens_append]
  rfl

theorem isAbsolute_append (hp : p ≠ []) (q : List UInt8) : isAbsolute (p ++ q) = isAbsolute p := by
  cases p with
  | nil => exact absurd rfl hp
  | cons c p => rfl

/-- What a path names, when its first part names `v`. -/
theorem resolvePath_append (hp : p ≠ []) (hrel : q.head? ≠ some slash)
    (hv : ∀ v, resolvePath st cwd p = .ok v → v ≠ 0) :
    resolvePath st cwd (p ++ slash :: q) =
      (resolvePath st cwd p).bind fun v => resolvePath st v q := by
  have habs := isAbsolute_append hp (slash :: q)
  by_cases hnone : ¬ isAbsolute p ∧ cwd = 0
  · rw [resolvePath, habs, if_pos hnone, resolvePath, if_pos hnone]
    rfl
  have hfirst : resolvePath st cwd p = resolve st (startVnode st cwd p) (components p) := by
    rw [resolvePath, if_neg hnone]
  rw [resolvePath, habs, if_neg hnone, startVnode, habs, ← startVnode, components_append,
    resolve_append, ← hfirst]
  cases hres : resolvePath st cwd p with
  | error c => rfl
  | ok v =>
      have hqrel : ¬ isAbsolute q := by simpa only [isAbsolute, decide_eq_true_eq] using hrel
      have hstart : ¬ (¬ isAbsolute q ∧ v = 0) := fun h => hv v hres h.2
      change resolve st v (components q) = resolvePath st v q
      rw [resolvePath, if_neg hstart, startVnode, if_neg hqrel]

/-- `Padding p p'`: the path `p'` is `p` with a slash or a component `.` put in. -/
inductive Padding : List UInt8 → List UInt8 → Prop
  | doubleSlash (a b : List UInt8) : Padding (a ++ slash :: b) (a ++ slash :: slash :: b)
  | slashLast (p : List UInt8) : p ≠ [] → Padding p (p ++ [slash])
  | dot (a b : List UInt8) : Padding (a ++ slash :: b) (a ++ slash :: (dotName ++ slash :: b))
  | dotFirst (p : List UInt8) : p ≠ [] → ¬ isAbsolute p → Padding p (dotName ++ slash :: p)
  | dotLast (p : List UInt8) : p ≠ [] → Padding p (p ++ slash :: dotName)

theorem resolve_dot (names names' : List (List UInt8)) (current : ℕ) :
    resolve st current (names ++ dotName :: names') = resolve st current (names ++ names') := by
  rw [resolve_append, resolve_append]
  congr 1

theorem Padding.isAbsolute (h : Padding p q) : isAbsolute q = isAbsolute p := by
  cases h with
  | doubleSlash a b => cases a <;> rfl
  | slashLast _ hp => exact isAbsolute_append hp _
  | dot a b => cases a <;> rfl
  | dotFirst _ hp habs =>
      rw [Bool.eq_false_iff.2 habs]
      rfl
  | dotLast _ hp => exact isAbsolute_append hp _

theorem Padding.resolve (h : Padding p q) (current : ℕ) :
    resolve st current (components q) = Vfs.resolve st current (components p) := by
  have hdot : components dotName = [dotName] := rfl
  have hnil : components [] = [] := rfl
  cases h with
  | doubleSlash a b =>
      have hb : components (slash :: b) = components b := components_append [] b
      rw [components_append, components_append, hb]
  | slashLast _ hp => rw [components_append, hnil, List.append_nil]
  | dot a b =>
      rw [components_append, components_append, components_append, hdot]
      exact resolve_dot _ _ _
  | dotFirst _ hp habs =>
      rw [components_append, hdot]
      exact resolve_dot [] _ _
  | dotLast _ hp =>
      rw [components_append, hdot, resolve_dot, List.append_nil]

theorem Padding.resolvePath (h : Padding p q) : resolvePath st cwd q = Vfs.resolvePath st cwd p := by
  simp only [Vfs.resolvePath, startVnode, h.isAbsolute, h.resolve]

theorem Padding.run (h : ReflTransGen Padding p q) : Vfs.resolvePath st cwd q = Vfs.resolvePath st cwd p := by
  induction h with
  | refl => rfl
  | tail _ hstep ih => rw [hstep.resolvePath, ih]

theorem code_bind {first : Except ℤ ℕ} {next : ℕ → Except ℤ ℕ} (h : code first ≠ 0) :
    code (first.bind next) = code first := by
  cases first with
  | error c => rfl
  | ok v => exact absurd rfl h

theorem resolvePath_of_code (h : code (resolvePath st cwd path) = 0) :
    ∃ v, resolvePath st cwd path = .ok v := by
  cases hres : resolvePath st cwd path with
  | error c =>
      rw [hres] at h
      exact absurd h (resolvePath_error hres).ne
  | ok v => exact ⟨v, rfl⟩

def SameResult (x y : State × ℤ × ℕ) : Prop := x.2.1 = y.2.1 ∧ (x.2.1 = 0 → x.2.2 = y.2.2)

/-- Paths that name the same have the same lookups. -/
theorem lookupPath_congr (hp0 : (0 : UInt8) ∉ p) (hq0 : (0 : UInt8) ∉ q) (hp : CopyOk st p)
    (hq : CopyOk st q) (hsame : resolvePath st cwd q = resolvePath st cwd p) :
    SameResult (lookupPath st cwd q) (lookupPath st cwd p) := by
  rw [lookupPath_spec hp0 hp, lookupPath_spec hq0 hq, hsame]
  refine ⟨rfl, fun h0 => ?_⟩
  obtain ⟨v, hv⟩ := resolvePath_of_code h0
  change leftoverPath st cwd q = leftoverPath st cwd p
  rw [leftoverPath_of_ok hv, leftoverPath_of_ok (hsame.trans hv)]

theorem Padding.nul (h : Padding p q) (hp : (0 : UInt8) ∉ p) : (0 : UInt8) ∉ q := by
  have hslash : (0 : UInt8) ≠ slash := by decide
  have hdot : (0 : UInt8) ∉ dotName := by decide
  cases h with
  | doubleSlash a b =>
      simp only [List.mem_append, List.mem_cons, not_or] at hp ⊢
      exact ⟨hp.1, hslash, hslash, hp.2.2⟩
  | slashLast _ _ =>
      simp only [List.mem_append, List.mem_singleton, not_or]
      exact ⟨hp, hslash⟩
  | dot a b =>
      simp only [List.mem_append, List.mem_cons, not_or] at hp ⊢
      exact ⟨hp.1, hslash, hdot, hslash, hp.2.2⟩
  | dotFirst _ _ _ =>
      simp only [List.mem_append, List.mem_cons, not_or]
      exact ⟨hdot, hslash, hp⟩
  | dotLast _ _ =>
      simp only [List.mem_append, List.mem_cons, not_or]
      exact ⟨hp, hslash, hdot⟩

theorem Padding.run_nul (h : ReflTransGen Padding p q) (hp : (0 : UInt8) ∉ p) : (0 : UInt8) ∉ q := by
  induction h with
  | refl => exact hp
  | tail _ hstep ih => exact hstep.nul ih

/-- `vfs_lookup` of `p/q` is `vfs_lookup` of `p` and then of `q` from the vnode found, and padding a path
changes neither the code nor the vnode. -/
theorem lookup_composes (h : s.Reachable) (t : ℕ) (hp0 : (0 : UInt8) ∉ p) (hp : p ≠ [])
    (hpcopy : CopyOk s.st p) :
    (∀ q, (0 : UInt8) ∉ q → q.head? ≠ some slash → CopyOk s.st (p ++ slash :: q) →
      CopyOk (lookupPath s.st (s.tasks t).cwd p).1 q →
      let whole := lookupPath s.st (s.tasks t).cwd (p ++ slash :: q)
      let first := lookupPath s.st (s.tasks t).cwd p
      (first.2.1 ≠ 0 → whole.2.1 = first.2.1) ∧
        (first.2.1 = 0 → SameResult whole (lookupPath first.1 first.2.2 q))) ∧
      ∀ q, ReflTransGen Padding p q → CopyOk s.st q →
        SameResult (lookupPath s.st (s.tasks t).cwd q) (lookupPath s.st (s.tasks t).cwd p) := by
  obtain ⟨T, hinv⟩ := h.inv
  refine ⟨fun q hq0 hrel hcopy hqcopy => ?_, fun q hpad hqcopy =>
    lookupPath_congr hp0 (Padding.run_nul hpad hp0) hpcopy hqcopy (Padding.run hpad)⟩
  have hwhole0 : (0 : UInt8) ∉ p ++ slash :: q := by
    simp only [List.mem_append, List.mem_cons, not_or]
    exact ⟨hp0, by decide, hq0⟩
  have happ : resolvePath s.st (s.tasks t).cwd (p ++ slash :: q) =
      (resolvePath s.st (s.tasks t).cwd p).bind fun v => resolvePath s.st v q :=
    resolvePath_append hp hrel fun v hv => hinv.tree.ne_zero (hinv.tree.resolvePath_mem (hinv.cwd t) hv)
  rw [lookupPath_spec hp0 hpcopy] at hqcopy
  simp only [lookupPath_spec hp0 hpcopy, lookupPath_spec hwhole0 hcopy, happ]
  refine ⟨fun hfail => code_bind hfail, fun hok => ?_⟩
  obtain ⟨v, hv⟩ := resolvePath_of_code hok
  have hsame : SameTree s.st (afterLookup s.st p) := ⟨rfl, rfl, rfl, rfl⟩
  rw [leftoverPath_of_ok hv, lookupPath_spec hq0 hqcopy, hsame.resolvePath, hsame.leftoverPath]
  have hnext : resolvePath s.st (s.tasks t).cwd (p ++ slash :: q) = resolvePath s.st v q := by
    rw [happ, hv]
    rfl
  rw [hv]
  refine ⟨rfl, fun h0 => ?_⟩
  obtain ⟨w, hw⟩ := resolvePath_of_code h0
  change leftoverPath s.st (s.tasks t).cwd (p ++ slash :: q) = leftoverPath s.st v q
  rw [leftoverPath_of_ok hw, leftoverPath_of_ok (hnext.trans hw)]

/-- In a tree with the directory `/a`, the path `/a/..` leads from `/a` to the root. -/
theorem lookup_composes_parent :
    SameResult (lookupPath Sys.withDir.st (Sys.withDir.tasks 0).cwd [47, 97, 47, 46, 46])
      (lookupPath (lookupPath Sys.withDir.st (Sys.withDir.tasks 0).cwd [47, 97]).1
        (lookupPath Sys.withDir.st (Sys.withDir.tasks 0).cwd [47, 97]).2.2 [46, 46]) := by
  have h := (lookup_composes Sys.withDir_reachable 0 (p := [47, 97]) (by decide) (by decide)
    (by decide)).1 [46, 46] (by decide) (by decide) (by decide) (by decide)
  exact h.2 (by decide)

/-- The root of an initramfs on `/a` has come from a block that held children. `/a/y` is found, with a null
vnode, from where nothing can be looked up. -/
theorem lookup_not_composed : ¬ ∀ (s : Sys) (t : ℕ) (p q : List UInt8), s.Called → (0 : UInt8) ∉ p →
    p ≠ [] → CopyOk s.st p → (0 : UInt8) ∉ q → q.head? ≠ some slash → CopyOk s.st (p ++ slash :: q) →
      CopyOk (lookupPath s.st (s.tasks t).cwd p).1 q →
      let whole := lookupPath s.st (s.tasks t).cwd (p ++ slash :: q)
      let first := lookupPath s.st (s.tasks t).cwd p
      first.2.1 = 0 → SameResult whole (lookupPath first.1 first.2.2 q) := by
  intro hall
  have hsame := (hall Sys.stale 0 [47, 97, 47, 121] [46] Sys.stale_called (by decide) (by decide)
    (by decide) (by decide) (by decide) (by decide) (by decide) (by decide)).1
  have hwhole : (lookupPath Sys.stale.st (Sys.stale.tasks 0).cwd [47, 97, 47, 121, 47, 46]).2.1 = 0 := by
    decide
  have hnext : (lookupPath (lookupPath Sys.stale.st (Sys.stale.tasks 0).cwd [47, 97, 47, 121]).1
      (lookupPath Sys.stale.st (Sys.stale.tasks 0).cwd [47, 97, 47, 121]).2.2 [46]).2.1 = einterr := by
    decide
  have hcodes : (0 : ℤ) = einterr := hwhole.symm.trans (hsame.trans hnext)
  exact absurd hcodes (by decide)

end OscKernel.Vfs
