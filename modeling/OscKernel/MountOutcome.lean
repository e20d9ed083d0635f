import OscKernel.OpenOutcomes

/-!
# The outcome of a mount

`register_filesystem` takes any structure with a name, so that the table of `vfs_mount` may have file systems
besides tmpfs and initramfs: some without a `setup_mount`, and some whose `setup_mount` reports an error. A
mount links the target before it knows whether there is a `setup_mount` and what it returns.
-/

namespace OscKernel.Vfs

variable {s : Sys} {st base linked st' : State} {T : Set ℕ} {v w m n fs cwd lost : ℕ}
  {path name : List UInt8} {x : ℤ}

/-- A `setup_mount` from elsewhere. When it reports an error the vnodes and the blocks are as they were. -/
structure ForeignSetup where
  run : State → ℕ → ℕ → State × ℤ
  keeps : ∀ st fs m, (run st fs m).2 ≠ 0 → ∀ b ∈ st.heap.live,
    ((run st fs m).1.vnodes b.1).mount = (st.vnodes b.1).mount ∧
      ((run st fs m).1.vnodes b.1).parent = (st.vnodes b.1).parent
  live : ∀ st fs m, (run st fs m).2 ≠ 0 → ∀ b, b ∈ (run st fs m).1.heap.live ↔ b ∈ st.heap.live

inductive SetupMount where
  | null
  | backend (ops : VnodeOps)
  | foreign (f : ForeignSetup)

def SetupMount.run : SetupMount → Option (State → ℕ → ℕ → State × ℤ)
  | .null => none
  | .backend ops => some ops.setupMount
  | .foreign f => some f.run

def SetupMount.ofTable : Option VnodeOps → SetupMount
  | none => .null
  | some ops => .backend ops

structure Registered where
  fs : ℕ
  name : List UInt8
  setupMount : SetupMount

def registerIn (table : List Registered) (fs : ℕ) (name : Option (List UInt8)) (setupMount : SetupMount) :
    List Registered × ℤ :=
  match name with
  | none => (table, einval)
  | some name =>
      if fs = 0 then (table, einval)
      else if table.length < maxFilesystems then
        if ∃ r ∈ table, r.name = name then (table, eexist)
        else (table ++ [⟨fs, name, setupMount⟩], 0)
      else (table, enomem)

def State.table (st : State) : List Registered :=
  st.filesystems.map fun f => ⟨f, (st.fsTable f).name, SetupMount.ofTable (st.fsTable f).setupMount⟩

inductive Accepted (st : State) : List Registered → Prop
  | table : Accepted st st.table
  | register {table : List Registered} (fs : ℕ) (name : Option (List UInt8)) (setupMount : SetupMount) :
      Accepted st table → Accepted st (registerIn table fs name setupMount).1

def mountVnodeIn (st : State) (v : ℕ) (r : Registered) : State × ℤ :=
  let (st, m) := st.alloc sizeofMount
  if m = 0 then (st, enomem)
  else
    let st := st.setMount m fun _ => { root := 0, fs := r.fs }
    let st := st.setVnode v fun e => { e with mount := m }
    match r.setupMount.run with
    | none => (st.free m, enosys)
    | some setup =>
        let (st, result) := setup st r.fs m
        if result ≠ 0 then ((st.setVnode v fun e => { e with mount := 0 }).free m, result)
        else (st.setVnode (st.mounts m).root fun e => { e with parent := v }, 0)

def findIn (table : List Registered) (name : List UInt8) : Option Registered :=
  table.find? fun r => r.name = name

def vfsMountIn (st : State) (table : List Registered) (cwd : ℕ) (target filesystem : Option (List UInt8)) :
    State × ℤ :=
  match target, filesystem with
  | some path, some name =>
      match findIn table name with
      | none => (st, enodev)
      | some r =>
          let (st, result, v) := lookupPath st cwd path
          if result ≠ 0 then (st, result)
          else if (st.vnodes v).vOps = none then (st, enosys)
          else if (st.vnodes v).mount ≠ 0 ∨ (st.vnodes v).parentIsMount then (st, ebusy)
          else mountVnodeIn st v r
  | _, _ => (st, einval)

theorem lookupPath_fsTable (hnul : (0 : UInt8) ∉ path) (st : State) (cwd : ℕ) :
    (lookupPath st cwd path).1.fsTable = st.fsTable := by
  by_cases hcopy : CopyOk st path
  · rw [lookupPath_spec hnul hcopy]
    rfl
  · rw [lookupPath_no_copy hcopy]
    rfl

/-- With the table of the kernel this is `vfs_mount`. -/
theorem vfsMountIn_table (st : State) (cwd : ℕ) {target : Option (List UInt8)}
    (hnul : ∀ p ∈ target, (0 : UInt8) ∉ p) (filesystem : Option (List UInt8)) :
    vfsMountIn st st.table cwd target filesystem = vfsMount st cwd target filesystem := by
  cases target with
  | none => rfl
  | some path =>
      cases filesystem with
      | none => rfl
      | some name =>
          have hfind : findIn st.table name =
              (st.filesystems.find? fun f => (st.fsTable f).name = name).map fun f =>
                ⟨f, (st.fsTable f).name, SetupMount.ofTable (st.fsTable f).setupMount⟩ := List.find?_map ..
          rw [vfsMountIn, vfsMount, hfind]
          cases st.filesystems.find? fun f => (st.fsTable f).name = name with
          | none => rfl
          | some f =>
              have htable := lookupPath_fsTable (hnul path rfl) st cwd
              rcases hlook : lookupPath st cwd path with ⟨st₁, result, v⟩
              rw [hlook] at htable
              change st₁.fsTable = st.fsTable at htable
              simp only [Option.map_some, mountVnodeIn, mountVnode, State.alloc, State.setMount,
                State.setVnode, htable]
              cases (st.fsTable f).setupMount <;> rfl

/-- Every vnode is where it was, the blocks in use are the same, and every mount is one of them. -/
structure Unchanged (st st' : State) (T : Set ℕ) : Prop where
  vnode : ∀ w ∈ T, (st'.vnodes w).mount = (st.vnodes w).mount ∧
    (st'.vnodes w).parent = (st.vnodes w).parent
  live : ∀ b, b ∈ st'.heap.live ↔ b ∈ st.heap.live
  mounted : ∀ w ∈ T, (st'.vnodes w).mount ≠ 0 → ((st'.vnodes w).mount, sizeofMount) ∈ st'.heap.live

def linkedState (st : State) (path : List UInt8) (v fs : ℕ) : State × ℕ :=
  let (st, m) := (afterLookup st path).alloc sizeofMount
  ((st.setMount m fun _ => { root := 0, fs := fs }).setVnode v fun e => { e with mount := m }, m)

structure Links (st : State) (table : List Registered) (cwd : ℕ) (path name : List UInt8) (r : Registered)
    (v : ℕ) : Prop where
  found : findIn table name = some r
  target : LookupFinds st cwd path v
  mount : (st.vnodes v).mount = 0
  plain : (st.vnodes v).parentIsMount = false
  room : ((afterLookup st path).alloc sizeofMount).2 ≠ 0

/-- A failing `setup_mount` on the way from `base`, the state without the structure `m`: it has freed
`lost`. -/
structure SetupFails (base st' : State) (m lost : ℕ) : Prop where
  vnode : ∀ b ∈ base.heap.live, (st'.vnodes b.1).mount = (base.vnodes b.1).mount ∧
    (st'.vnodes b.1).parent = (base.vnodes b.1).parent
  live : ∀ b, b ∈ st'.heap.live ↔ (b = (m, sizeofMount) ∨ b ∈ base.heap.live) ∧ b.1 ≠ lost

theorem Extends.setupFails (he : Extends base st' [(m, sizeofMount)]) : SetupFails base st' m 0 := by
  refine ⟨fun b hb => ?_, fun b => ?_⟩
  · rw [he.vnode b hb]
    exact ⟨rfl, rfl⟩
  · rw [he.live, List.singleton_append, List.mem_cons]
    refine ⟨fun hb => ⟨hb, ?_⟩, And.left⟩
    refine (he.ok.start_pos b ?_).ne'
    rw [he.live]
    exact List.mem_cons.2 hb

theorem ForeignSetup.fails (f : ForeignSetup) (he : Extends base linked [(m, sizeofMount)])
    (hx : (f.run linked fs m).2 ≠ 0) : SetupFails base (f.run linked fs m).1 m 0 := by
  have hfails := he.setupFails
  refine ⟨fun b hb => ?_, fun b => ?_⟩
  · obtain ⟨hmount, hparent⟩ := f.keeps linked fs m hx b (he.mem_live hb)
    rw [hmount, hparent]
    exact hfails.vnode b hb
  · rw [f.live linked fs m hx b]
    exact hfails.live b

theorem Unchanged.of_extends (h : Tree st T) (he : Extends st st' []) : Unchanged st st' T := by
  refine ⟨fun w hw => ?_, fun b => ?_, fun w hw hmount => ?_⟩
  · rw [he.vnode _ (h.vnode w hw)]
    exact ⟨rfl, rfl⟩
  · rw [he.live, List.nil_append]
  · rw [he.vnode _ (h.vnode w hw)] at hmount ⊢
    exact he.mem_live (h.mount w hw hmount).1

def finishMount (linked : State) (v m : ℕ) (r : Registered) : State × ℤ :=
  match r.setupMount.run with
  | none => (linked.free m, enosys)
  | some setup =>
      let (st, result) := setup linked r.fs m
      if result ≠ 0 then ((st.setVnode v fun e => { e with mount := 0 }).free m, result)
      else (st.setVnode (st.mounts m).root fun e => { e with parent := v }, 0)

/-- A mount fails without a change, or gets as far as the link. -/
theorem vfsMountIn_cases (h : Tree st T) (hcwd : cwd = 0 ∨ cwd ∈ T) (hnul : (0 : UInt8) ∉ path)
    (table : List Registered) (name : List UInt8) :
    ((vfsMountIn st table cwd (some path) (some name)).2 ≠ 0 ∧
        Extends st (vfsMountIn st table cwd (some path) (some name)).1 [] ∧
        ∀ r v, ¬ Links st table cwd path name r v) ∨
      ∃ r v, Links st table cwd path name r v ∧ v ∈ T ∧
        vfsMountIn st table cwd (some path) (some name) =
          finishMount (linkedState st path v r.fs).1 v (linkedState st path v r.fs).2 r := by
  cases hfind : findIn table name with
  | none =>
      refine Or.inl ⟨?_, ?_, fun r v hl => ?_⟩
      · simp only [vfsMountIn, hfind]
        decide
      · simp only [vfsMountIn, hfind]
        exact Extends.refl h.heap
      · rw [hl.found] at hfind
        cases hfind
  | some r =>
      obtain ⟨hext, hsame⟩ := lookupPath_extends h.heap hnul cwd
      rcases found_or_missing st cwd path with ⟨v, hv⟩ | hmissing
      swap
      · refine Or.inl ⟨?_, ?_, fun r v hl => hl.target.not_missing hmissing⟩
        · simp only [vfsMountIn, hfind, if_pos hmissing]
          exact hmissing
        · simp only [vfsMountIn, hfind, if_pos hmissing]
          exact hext
      obtain ⟨hcopy, hres⟩ := (lookupFinds_iff hnul).1 hv
      have hvT := h.resolvePath_mem hcwd hres
      have hunique : ∀ r' v', Links st table cwd path name r' v' → r' = r ∧ v' = v := by
        intro r' v' hl
        refine ⟨Option.some.inj (hl.found.symm.trans hfind), ?_⟩
        exact (Prod.mk.inj ((show _ = _ from hl.target).symm.trans hv)).2
      have hspec : lookupPath st cwd path = (afterLookup st path, 0, v) := by
        rw [lookupPath_spec hnul hcopy, hres, leftoverPath_of_ok hres]
        rfl
      rw [hspec] at hext
      have hvops : ¬ ((afterLookup st path).vnodes v).vOps = none := h.vOps v hvT
      by_cases hbusy : ((afterLookup st path).vnodes v).mount ≠ 0 ∨
          ((afterLookup st path).vnodes v).parentIsMount = true
      · have heq : vfsMountIn st table cwd (some path) (some name) = (afterLookup st path, ebusy) := by
          simp only [vfsMountIn, hfind, hspec, if_neg (not_not.2 rfl), if_neg hvops, if_pos hbusy]
        rw [heq]
        refine Or.inl ⟨(by decide : ebusy ≠ 0), hext, fun r' v' hl => ?_⟩
        obtain ⟨rfl, rfl⟩ := hunique r' v' hl
        exact hbusy.elim (fun hm => hm hl.mount) fun hp => absurd (hl.plain.symm.trans hp) (by decide)
      have heq : vfsMountIn st table cwd (some path) (some name) =
          mountVnodeIn (afterLookup st path) v r := by
        simp only [vfsMountIn, hfind, hspec, if_neg (not_not.2 rfl), if_neg hvops, if_neg hbusy]
      rw [heq]
      rw [not_or] at hbusy
      by_cases hroom : ((afterLookup st path).alloc sizeofMount).2 = 0
      · refine Or.inl ⟨?_, ?_, fun r' v' hl => hl.room hroom⟩
        · simp only [mountVnodeIn, if_pos hroom]
          decide
        · simp only [mountVnodeIn, if_pos hroom]
          rcases State.alloc_cases hext.ok (n := sizeofMount) (by decide) with
            ⟨st₂, heq₂, hext₂⟩ | ⟨st₂, m, heq₂, hm, -⟩
          · rw [heq₂]
            exact hext.trans hext₂
          · rw [heq₂] at hroom
            exact absurd hroom hm
      · refine Or.inr ⟨r, v, ⟨hfind, hv, not_not.1 hbusy.1, Bool.eq_false_iff.2 hbusy.2, hroom⟩, hvT, ?_⟩
        rw [mountVnodeIn]
        simp only [if_neg hroom]
        rfl

/-- The state behind the link is the one with the link and the new structure. -/
theorem linkedState_extends (h : Tree st T) (hv : v ∈ T) (path : List UInt8) (fs : ℕ)
    (hroom : ((afterLookup st path).alloc sizeofMount).2 ≠ 0) :
    Extends (st.setVnode v fun e => { e with mount := (linkedState st path v fs).2 })
        (linkedState st path v fs).1 [((linkedState st path v fs).2, sizeofMount)] ∧
      Extends.Fresh st (linkedState st path v fs).2 := by
  have hext := afterLookup_fresh h.heap path
  rcases State.alloc_cases hext.ok (n := sizeofMount) (by decide) with
    ⟨st₂, heq, -⟩ | ⟨st₂, m, heq, -, hfresh, hext₂, -⟩
  · rw [heq] at hroom
    exact absurd rfl hroom
  have hm : Extends.Fresh st m := fun b hb => hfresh b (hext.mem_live hb)
  have hlinked : linkedState st path v fs =
      ((st₂.setMount m fun _ => { root := 0, fs := fs }).setVnode v fun e => { e with mount := m }, m) := by
    simp only [linkedState, heq]
  rw [hlinked]
  refine ⟨?_, hm⟩
  exact ((hext.trans hext₂).setMount hm _).setVnode_both (h.vnode v hv) _

end OscKernel.Vfs
