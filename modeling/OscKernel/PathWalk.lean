import OscKernel.TmpfsCreate
import OscKernel.Vfs

/-!
# Lookup as a walk over components

The loop of `vfs_lookup` over its copy of the path is a fold over the components of the path. `resolve`
is the fold, and `leftover` is the value that the loop leaves in the target when it fails.
-/

namespace OscKernel.Vfs

open CStrings (Holds tokens)

variable {st : State} {current t n : ℕ} {cells : Cells} {target : Target} {buf : ByteMem} {pos : ℕ}
  {path s : List UInt8} {name : List UInt8}

def components (path : List UInt8) : List (List UInt8) := tokens slash path

def walkComponent (st : State) (current : ℕ) (name : List UInt8) : Except ℤ ℕ :=
  if name = dotName then .ok current
  else if name = dotDotName then walkUp st current
  else walkDown st current name

def resolve (st : State) (current : ℕ) (names : List (List UInt8)) : Except ℤ ℕ :=
  names.foldlM (walkComponent st) current

/-- The target after the walk, which holds `t` before it. -/
def leftover (st : State) : List (List UInt8) → ℕ → ℕ → ℕ
  | [], current, _ => current
  | name :: names, current, t =>
      match walkComponent st current name with
      | .error _ => t
      | .ok v => leftover st names v (if name = dotDotName ∧ current ≠ st.root then v else t)

def code : Except ℤ ℕ → ℤ
  | .error c => c
  | .ok _ => 0

theorem resolve_nil : resolve st current [] = .ok current := rfl

theorem resolve_cons (names : List (List UInt8)) :
    resolve st current (name :: names) =
      (walkComponent st current name).bind fun v => resolve st v names := rfl

theorem resolve_append (p q : List (List UInt8)) :
    resolve st current (p ++ q) = (resolve st current p).bind fun v => resolve st v q :=
  List.foldlM_append

theorem leftover_of_ok {names : List (List UInt8)} {v : ℕ} (h : resolve st current names = .ok v) :
    leftover st names current t = v := by
  induction names generalizing current t with
  | nil => exact Except.ok.inj h
  | cons name names ih =>
      rw [resolve_cons] at h
      cases hstep : walkComponent st current name with
      | error c => rw [hstep] at h; cases h
      | ok w =>
          rw [hstep] at h
          simp only [leftover, hstep]
          exact ih h

theorem walkUp_error {c : ℤ} (h : walkUp st current = .error c) : c = einterr := by
  simp only [walkUp] at h
  split_ifs at h <;> exact (Except.error.inj h).symm

theorem lookup_code (ops : VnodeOps) (dir : ℕ) : (ops.lookup st dir t name).1 ≤ 0 := by
  have h : (tmpfsLookup st dir t name).1 ≤ 0 := by
    rw [tmpfsLookup]
    split_ifs
    · exact (by decide : einval ≤ 0)
    · exact (by decide : eacces ≤ 0)
    · cases findChild st (st.internal dir) name with
      | none => exact (by decide : enoent ≤ 0)
      | some c => exact le_rfl
  cases ops <;> exact h

/-- Errors are negative. -/
theorem walkDown_error {c : ℤ} (h : walkDown st current name = .error c) : c < 0 := by
  cases hops : (st.vnodes (cross st current)).vOps with
  | none =>
      simp only [walkDown, hops] at h
      rw [← Except.error.inj h]
      decide
  | some ops =>
      simp only [walkDown, hops] at h
      split_ifs at h with hr
      exact Except.error.inj h ▸ lt_of_le_of_ne (lookup_code ops _) hr

theorem walkComponent_error {c : ℤ} (h : walkComponent st current name = .error c) : c < 0 := by
  simp only [walkComponent] at h
  split_ifs at h
  · rw [walkUp_error h]
    decide
  · exact walkDown_error h

theorem resolve_error {names : List (List UInt8)} {c : ℤ}
    (h : resolve st current names = .error c) : c < 0 := by
  induction names generalizing current with
  | nil => cases h
  | cons name names ih =>
      rw [resolve_cons] at h
      cases hstep : walkComponent st current name with
      | error c' =>
          rw [hstep] at h
          exact Except.error.inj h ▸ walkComponent_error hstep
      | ok w =>
          rw [hstep] at h
          exact ih h

theorem scan_slashes (h : Holds buf pos s) (hn : s.length ≤ n) :
    ∃ c, CStrings.scan buf (· = slash) n pos = c ∧ Holds buf c (s.dropWhile (· = slash)) := by
  refine ⟨_, CStrings.scan_holds (by decide) h hn, ?_⟩
  have hsplit := h
  rw [← List.takeWhile_append_dropWhile (p := fun b : UInt8 => decide (b = slash)) (l := s)] at hsplit
  exact hsplit.right

theorem scan_component {rest : List UInt8} (h : Holds buf pos (name ++ rest)) (hname : slash ∉ name)
    (hrest : ∀ b ∈ rest.head?, b = slash) (hn : (name ++ rest).length ≤ n) :
    CStrings.scan buf (fun b => b ≠ 0 ∧ b ≠ slash) n pos = pos + name.length := by
  have hall : (name ++ rest).takeWhile (fun b => decide (b ≠ 0 ∧ b ≠ slash)) = name := by
    rw [List.takeWhile_append_of_pos]
    · cases rest with
      | nil => simp
      | cons b rest => simp [hrest b rfl]
    · intro b hb
      have h0 : b ≠ 0 := fun h0 => h.1 (List.mem_append_left _ (h0 ▸ hb))
      have h1 : b ≠ slash := fun h1 => hname (h1 ▸ hb)
      simpa using ⟨h0, h1⟩
  rw [CStrings.scan_holds (by decide) h hn, hall]

/-- A round of the loop finds the first component and leaves the pointer at the rest. -/
theorem getNextComponent_spec (h : Holds buf pos s) (hn : s.length ≤ n) :
    (components s = [] ∧ (getNextComponent n buf pos).2.2 = none) ∨
      ∃ buf' pos' c name rest, getNextComponent n buf pos = (buf', pos', some c) ∧
        CStrings.str buf' n c = name ∧ components s = name :: components rest ∧
        Holds buf' pos' rest ∧ rest.length < s.length := by
  cases s with
  | nil =>
      refine Or.inl ⟨rfl, ?_⟩
      rw [getNextComponent, if_pos (CStrings.holds_nil.1 h)]
  | cons b s =>
  have hpos : buf pos ≠ 0 := by
    obtain ⟨hb, ha, -⟩ := CStrings.holds_cons.1 h
    rwa [ha]
  obtain ⟨c, hc, hcs⟩ := scan_slashes h hn
  have hdrop : components ((b :: s).dropWhile (· = slash)) = components (b :: s) :=
    CStrings.tokens_dropWhile _
  have hlen : ((b :: s).dropWhile (· = slash)).length ≤ (b :: s).length :=
    (List.dropWhile_sublist _).length_le
  have hhead := List.head?_dropWhile_not (fun b => decide (b = slash)) (b :: s)
  rw [← hdrop]
  generalize (b :: s).dropWhile (· = slash) = s₁ at *
  cases s₁ with
  | nil =>
      refine Or.inl ⟨rfl, ?_⟩
      simp only [getNextComponent, if_neg hpos, hc, if_pos (CStrings.holds_nil.1 hcs)]
  | cons b₁ s₁ =>
  have hb₁ : b₁ ≠ slash := by simpa using hhead
  have hcpos : buf c ≠ 0 := by
    obtain ⟨hb, ha, -⟩ := CStrings.holds_cons.1 hcs
    rwa [ha]
  refine Or.inr ?_
  rcases CStrings.split_token (c := slash) (b₁ :: s₁) with hno | ⟨name, rest, hname, heq⟩
  · have happ : Holds buf c ((b₁ :: s₁) ++ []) := by rwa [List.append_nil]
    have hstop := scan_component (n := n) happ hno (by simp)
      (by rw [List.append_nil]; exact hlen.trans hn)
    have hend := happ.right
    have hne : buf (c + (b₁ :: s₁).length) ≠ slash := by
      rw [CStrings.holds_nil.1 hend]
      decide
    refine ⟨buf, _, c, b₁ :: s₁, [], ?_, CStrings.str_holds hcs (hlen.trans hn), ?_, hend, ?_⟩
    · simp only [getNextComponent, if_neg hpos, hc, if_neg hcpos, hstop, if_neg hne]
    · exact CStrings.tokens_of_not_mem hno nofun
    · exact Nat.zero_lt_succ _
  · rw [heq] at hcs hlen ⊢
    have hstop := scan_component hcs hname (by simp) (hlen.trans hn)
    have hne : buf (c + name.length) = slash := (CStrings.holds_cons.1 hcs.right).2.1
    obtain ⟨hcut, hrest⟩ := hcs.cut
    rw [List.length_append, List.length_cons] at hlen
    refine ⟨Function.update buf (c + name.length) 0, _, c, name, rest, ?_,
      CStrings.str_holds hcut (by omega), ?_, hrest, by omega⟩
    · simp only [getNextComponent, if_neg hpos, hc, if_neg hcpos, hstop, if_pos hne]
    · have hnil : name ≠ [] := by
        rintro rfl
        exact hb₁ (List.cons.inj heq).1
      rw [components, CStrings.tokens_append, CStrings.tokens_of_not_mem hname hnil]
      rfl

def Cells.get (c : Cells) (t : Target) : ℕ :=
  match t with
  | .cwd => c.cwd
  | .tmp => c.tmp

@[simp] theorem Cells.set_get : cells.set target (cells.get target) = cells := by
  cases target <;> rfl

@[simp] theorem Cells.set_set (v w : ℕ) : (cells.set target v).set target w = cells.set target w := by
  cases target <;> rfl

@[simp] theorem Cells.get_set (v : ℕ) : (cells.set target v).get target = v := by
  cases target <;> rfl

/-- The loop over the buffer is the walk over the components. -/
theorem vfsWalk_eq {fuel : ℕ} (h : Holds buf pos s) (hn : s.length ≤ n) (hfuel : s.length < fuel) :
    vfsWalk st target n fuel buf pos current cells =
      (code (resolve st current (components s)),
        cells.set target (leftover st (components s) current (cells.get target))) := by
  induction fuel generalizing buf pos s current cells with
  | zero => omega
  | succ fuel ih =>
      rcases getNextComponent_spec h hn with
        ⟨hnil, hnone⟩ | ⟨buf', pos', c, name, rest, hnext, hstr, hcons, hrest, hlt⟩
      · obtain ⟨buf', pos', heq⟩ : ∃ buf' pos', getNextComponent n buf pos = (buf', pos', none) :=
          ⟨_, _, Prod.ext rfl (Prod.ext rfl hnone)⟩
        rw [hnil, vfsWalk, heq]
        rfl
      · rw [hcons, vfsWalk, hnext]
        simp only [hstr, resolve_cons, leftover]
        have hnext : ∀ v c, vfsWalk st target n fuel buf' pos' v c =
            (code (resolve st v (components rest)),
              c.set target (leftover st (components rest) v (c.get target))) :=
          fun v c => ih hrest (by omega) (by omega)
        by_cases hdot : name = dotName
        · subst hdot
          simp only [walkComponent, if_true, hnext]
          rw [if_neg fun h => absurd h.1 (by decide)]
          rfl
        by_cases hdotdot : name = dotDotName
        · subst hdotdot
          simp only [walkComponent, if_neg hdot, if_true]
          cases hup : walkUp st current with
          | error c => simp [Except.bind, code]
          | ok v =>
              by_cases hroot : current = st.root
              · simp [Except.bind, hnext, hroot]
              · simp [Except.bind, hnext, hroot]
        · simp only [walkComponent, if_neg hdot, if_neg hdotdot]
          cases hdown : walkDown st current name with
          | error c => simp [Except.bind, code]
          | ok v => simp [Except.bind, hnext, hdotdot]

/-- The states have the same vnodes, nodes and mounts. -/
structure SameTree (st st' : State) : Prop where
  vnodes : st'.vnodes = st.vnodes
  nodes : st'.nodes = st.nodes
  mounts : st'.mounts = st.mounts
  rootfs : st'.rootfs = st.rootfs

theorem SameTree.root {st' : State} (h : SameTree st st') : st'.root = st.root := by
  rw [State.root, State.root, h.mounts, h.rootfs]

theorem SameTree.lookup {st' : State} (h : SameTree st st') (ops : VnodeOps) :
    ops.lookup st' = ops.lookup st := by
  obtain ⟨hp, mem, vnodes, nodes, mounts, files, fsTable, filesystems, rootfs⟩ := st'
  obtain ⟨rfl, rfl, rfl, rfl⟩ := h
  cases ops <;> rfl

theorem SameTree.walkComponent {st' : State} (h : SameTree st st') :
    walkComponent st' = walkComponent st := by
  funext current name
  simp only [Vfs.walkComponent, walkUp, walkDown, cross, h.lookup, h.root, h.vnodes, h.mounts]
  rfl

theorem SameTree.resolve {st' : State} (h : SameTree st st') : resolve st' = resolve st := by
  funext current names
  rw [Vfs.resolve, Vfs.resolve, h.walkComponent]

theorem SameTree.leftover {st' : State} (h : SameTree st st') : leftover st' = leftover st := by
  funext names current t
  induction names generalizing current t with
  | nil => rfl
  | cons name names ih => simp only [Vfs.leftover, h.walkComponent, h.root, ih]

theorem sameTree_strdup (st : State) (path : List UInt8) : SameTree st (strdup st path).1 :=
  ⟨rfl, rfl, rfl, rfl⟩

def CopyOk (st : State) (path : List UInt8) : Prop := (strdup st path).2 ≠ 0

instance (st : State) (path : List UInt8) : Decidable (CopyOk st path) :=
  inferInstanceAs (Decidable (_ ≠ _))

def isAbsolute (path : List UInt8) : Bool := path.head? = some slash

def startVnode (st : State) (cwd : ℕ) (path : List UInt8) : ℕ :=
  if isAbsolute path then st.root else cwd

/-- The state after a lookup: the copy has come and gone. -/
def afterLookup (st : State) (path : List UInt8) : State :=
  (strdup st path).1.free (strdup st path).2

theorem vfsLookup_eq (hnul : (0 : UInt8) ∉ path) (hcopy : CopyOk st path) :
    vfsLookup st cells target (some path) =
      if ¬ isAbsolute path ∧ (cells.set target 0).cwd = 0 then
        (afterLookup st path, einterr, cells.set target 0)
      else
        (afterLookup st path,
          code (resolve st (startVnode st (cells.set target 0).cwd path) (components path)),
          cells.set target
            (leftover st (components path) (startVnode st (cells.set target 0).cwd path) 0)) := by
  have hcopy' : ¬ (strdup st path).2 = 0 := hcopy
  have hroot : (strdup st path).1.root = st.root := rfl
  have hstart : (if path.head? = some slash then (strdup st path).1.root else (cells.set target 0).cwd) =
      startVnode st (cells.set target 0).cwd path := by
    simp only [startVnode, isAbsolute, decide_eq_true_eq, hroot]
  have habs : (path.head? = some slash) = (isAbsolute path = true) := by
    simp only [isAbsolute, decide_eq_true_eq]
  simp only [vfsLookup, if_neg hcopy', hstart]
  simp only [habs]
  by_cases hcwd : ¬ isAbsolute path ∧ (cells.set target 0).cwd = 0
  · rw [if_pos hcwd, if_pos hcwd]
    rfl
  rw [if_neg hcwd, if_neg hcwd]
  by_cases hslash : path = [slash]
  · subst hslash
    rw [if_pos rfl]
    simp only [Cells.set_set]
    rfl
  rw [if_neg hslash]
  by_cases hdot : path = [] ∨ path = dotName
  · have hstay : ∀ v, code (resolve st v (components path)) = 0 ∧
        leftover st (components path) v 0 = v := by
      intro v
      rcases hdot with rfl | rfl <;> exact ⟨rfl, rfl⟩
    simp only [if_pos hdot, Cells.set_set, hstay]
    rfl
  rw [if_neg hdot, vfsWalk_eq (CStrings.holds_write hnul) le_rfl (Nat.lt_succ_self _), Cells.set_set,
    Cells.get_set, (sameTree_strdup st path).resolve, (sameTree_strdup st path).leftover]
  rfl

/-- A lookup into a local variable. -/
theorem lookupPath_eq (hnul : (0 : UInt8) ∉ path) (hcopy : CopyOk st path) (cwd : ℕ) :
    lookupPath st cwd path =
      if ¬ isAbsolute path ∧ cwd = 0 then (afterLookup st path, einterr, 0)
      else
        (afterLookup st path, code (resolve st (startVnode st cwd path) (components path)),
          leftover st (components path) (startVnode st cwd path) 0) := by
  have hcwd : (Cells.set ⟨cwd, 0⟩ .tmp 0).cwd = cwd := rfl
  simp only [lookupPath, vfsLookup_eq hnul hcopy, hcwd]
  split_ifs <;> rfl

def resolvePath (st : State) (cwd : ℕ) (path : List UInt8) : Except ℤ ℕ :=
  if ¬ isAbsolute path ∧ cwd = 0 then .error einterr
  else resolve st (startVnode st cwd path) (components path)

def leftoverPath (st : State) (cwd : ℕ) (path : List UInt8) : ℕ :=
  if ¬ isAbsolute path ∧ cwd = 0 then 0
  else leftover st (components path) (startVnode st cwd path) 0

theorem resolvePath_error {cwd : ℕ} {c : ℤ} (h : resolvePath st cwd path = .error c) : c < 0 := by
  rw [resolvePath] at h
  split_ifs at h
  · rw [← Except.error.inj h]
    decide
  · exact resolve_error h

theorem leftoverPath_of_ok {cwd v : ℕ} (h : resolvePath st cwd path = .ok v) :
    leftoverPath st cwd path = v := by
  rw [resolvePath] at h
  rw [leftoverPath]
  split_ifs at h ⊢
  exact leftover_of_ok h

theorem SameTree.resolvePath {st' : State} (h : SameTree st st') :
    resolvePath st' = resolvePath st := by
  funext cwd path
  simp only [Vfs.resolvePath, startVnode, h.resolve, h.root]

theorem SameTree.leftoverPath {st' : State} (h : SameTree st st') :
    leftoverPath st' = leftoverPath st := by
  funext cwd path
  simp only [Vfs.leftoverPath, startVnode, h.leftover, h.root]

theorem lookupPath_spec (hnul : (0 : UInt8) ∉ path) (hcopy : CopyOk st path) (cwd : ℕ) :
    lookupPath st cwd path =
      (afterLookup st path, code (resolvePath st cwd path), leftoverPath st cwd path) := by
  rw [lookupPath_eq hnul hcopy, resolvePath, leftoverPath]
  split_ifs <;> rfl

theorem lookupPath_no_copy (hcopy : ¬ CopyOk st path) (cwd : ℕ) :
    lookupPath st cwd path = ((strdup st path).1, enomem, 0) := by
  have hcopy' : (strdup st path).2 = 0 := not_not.1 hcopy
  simp only [lookupPath, vfsLookup, if_pos hcopy']
  rfl

/-- A lookup changes no structure and keeps the blocks. -/
theorem afterLookup_extends (hok : st.heap.Ok) (hcopy : CopyOk st path) :
    Extends st (afterLookup st path) [] := by
  rcases State.alloc_extends hok (path.length + 1) with
    ⟨st', heq, -⟩ | ⟨st', p, heq, -, hfresh, hext, -, -, -, -⟩
  · exact absurd (congrArg Prod.snd heq) hcopy
  · rw [afterLookup, strdup, heq]
    exact hext.free (fun _ hb => absurd hb List.not_mem_nil) hfresh

theorem strdup_extends (hok : st.heap.Ok) (hcopy : ¬ CopyOk st path) :
    Extends st (strdup st path).1 [] := by
  rcases State.alloc_extends hok (path.length + 1) with
    ⟨st', heq, hext⟩ | ⟨st', p, heq, hp, -⟩
  · rwa [strdup, heq]
  · exact absurd (fun h0 => hp ((congrArg Prod.snd heq).symm.trans h0)) hcopy

theorem lookupPath_extends (hok : st.heap.Ok) (hnul : (0 : UInt8) ∉ path) (cwd : ℕ) :
    Extends st (lookupPath st cwd path).1 [] ∧ SameTree st (lookupPath st cwd path).1 := by
  by_cases hcopy : CopyOk st path
  · have hst : (lookupPath st cwd path).1 = afterLookup st path := by
      rw [lookupPath_eq hnul hcopy]
      split_ifs <;> rfl
    rw [hst]
    exact ⟨afterLookup_extends hok hcopy, ⟨rfl, rfl, rfl, rfl⟩⟩
  · rw [lookupPath_no_copy hcopy]
    exact ⟨strdup_extends hok hcopy, sameTree_strdup st path⟩

end OscKernel.Vfs
