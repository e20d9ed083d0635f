import OscKernel.OpenOutcomes

/-!
# The namespace under creation

Making directories and files, writing, seeking and closing leave every vnode in its place. So a path that
leads to a vnode goes on to lead there.
-/

namespace OscKernel.Vfs

open Relation Runs

variable {st st₁ st' : State} {T T' : Set ℕ} {v w file cwd target : ℕ} {path : List UInt8}
  {flags : BitVec 32} {r : ℤ}

structure SameNames (st st' : State) : Prop where
  vnodes : st'.vnodes = st.vnodes
  mounts : st'.mounts = st.mounts
  rootfs : st'.rootfs = st.rootfs
  node : ∀ n, SameShape (st.nodes n) (st'.nodes n) ∧ (st'.nodes n).name = (st.nodes n).name

namespace SameNames

theorem places (h : SameNames st st') : Places st st' T := Places.same h.vnodes h.mounts h.rootfs h.node

theorem of_sameTree (h : SameTree st st') : SameNames st st' :=
  ⟨h.vnodes, h.mounts, h.rootfs, fun n => by rw [h.nodes]; exact ⟨SameShape.refl _, rfl⟩⟩

theorem refl (st : State) : SameNames st st := of_sameTree ⟨rfl, rfl, rfl, rfl⟩

theorem trans (h₁ : SameNames st st₁) (h₂ : SameNames st₁ st') : SameNames st st' where
  vnodes := h₂.vnodes.trans h₁.vnodes
  mounts := h₂.mounts.trans h₁.mounts
  rootfs := h₂.rootfs.trans h₁.rootfs
  node n := by
    obtain ⟨hs₁, hn₁⟩ := h₁.node n
    obtain ⟨hs₂, hn₂⟩ := h₂.node n
    exact ⟨⟨hs₂.type.trans hs₁.type, hs₂.children.trans hs₁.children,
      hs₂.numChildren.trans hs₁.numChildren⟩, hn₂.trans hn₁⟩

/-- One node gets other contents. -/
theorem update {hp : Heap} {mem : ByteMem} {files : ℕ → File} {n : ℕ} {f : Node → Node}
    (hf : SameShape (st.nodes n) (f (st.nodes n)) ∧ (f (st.nodes n)).name = (st.nodes n).name) :
    SameNames st (State.setNode { st with heap := hp, mem := mem, files := files } n f) where
  vnodes := rfl
  mounts := rfl
  rootfs := rfl
  node k := by
    refine ⟨sameShape_update hf.1 k, ?_⟩
    change (Function.update st.nodes n (f (st.nodes n)) k).name = _
    by_cases hk : k = n
    · rw [hk, Function.update_self]
      exact hf.2
    · rw [Function.update_of_ne hk]

end SameNames

theorem tmpfsGrow_sameNames {n required : ℕ} {ok : Bool}
    (hgrow : tmpfsGrow st n required = some (st', ok)) : SameNames st st' := by
  simp only [tmpfsGrow, Option.bind_eq_bind] at hgrow
  obtain ⟨c, -, hgrow⟩ := Option.bind_eq_some_iff.1 hgrow
  split_ifs at hgrow with hlt hp hdata
  · obtain ⟨rfl, -⟩ := Prod.mk.inj (Option.some.inj hgrow)
    exact SameNames.of_sameTree ⟨rfl, rfl, rfl, rfl⟩
  · obtain ⟨rfl, -⟩ := Prod.mk.inj (Option.some.inj hgrow)
    exact SameNames.update ⟨⟨rfl, rfl, rfl⟩, rfl⟩
  · obtain ⟨rfl, -⟩ := Prod.mk.inj (Option.some.inj hgrow)
    exact SameNames.update ⟨⟨rfl, rfl, rfl⟩, rfl⟩
  · obtain ⟨rfl, -⟩ := Prod.mk.inj (Option.some.inj hgrow)
    exact SameNames.refl st

theorem tmpfsStore_sameNames (st : State) (file n : ℕ) (bytes : List UInt8) :
    SameNames st (tmpfsStore st file n bytes) := by
  simp only [tmpfsStore]
  split_ifs
  · exact SameNames.update ⟨⟨rfl, rfl, rfl⟩, rfl⟩
  · exact SameNames.of_sameTree ⟨rfl, rfl, rfl, rfl⟩

theorem tmpfsWrite_sameNames {buf : Option (List UInt8)} (hw : tmpfsWrite st file buf = some (st', r)) :
    SameNames st st' := by
  cases buf with
  | none =>
      obtain ⟨rfl, -⟩ := Prod.mk.inj (Option.some.inj hw)
      exact SameNames.refl st
  | some bytes =>
      simp only [tmpfsWrite, Option.bind_eq_bind] at hw
      split_ifs at hw with hbad hlen htype hcap
      · obtain ⟨rfl, -⟩ := Prod.mk.inj (Option.some.inj hw)
        exact SameNames.refl st
      · obtain ⟨rfl, -⟩ := Prod.mk.inj (Option.some.inj hw)
        exact SameNames.refl st
      · obtain ⟨rfl, -⟩ := Prod.mk.inj (Option.some.inj hw)
        exact SameNames.refl st
      · obtain ⟨⟨st₁, ok⟩, hgrow, hw⟩ := Option.bind_eq_some_iff.1 hw
        have hg := tmpfsGrow_sameNames hgrow
        cases ok with
        | false =>
            obtain ⟨rfl, -⟩ := Prod.mk.inj (Option.some.inj hw)
            exact hg
        | true =>
            obtain ⟨rfl, -⟩ := Prod.mk.inj (Option.some.inj hw)
            exact hg.trans (tmpfsStore_sameNames ..)
      · obtain ⟨rfl, -⟩ := Prod.mk.inj (Option.some.inj hw)
        exact tmpfsStore_sameNames ..

theorem devWrite_sameTree (st : State) (file : ℕ) (buf : Option (List UInt8)) :
    SameTree st (devWrite st file buf).1 := by
  cases buf with
  | none => exact ⟨rfl, rfl, rfl, rfl⟩
  | some bytes =>
      rw [devWrite]
      split_ifs <;> exact ⟨rfl, rfl, rfl, rfl⟩

theorem write_sameNames {ops : FileOps} {buf : Option (List UInt8)}
    (hw : ops.write st file buf = some (st', r)) : SameNames st st' := by
  have hdev : devWrite st file buf = (st', r) → SameNames st st' := fun heq =>
    SameNames.of_sameTree (by simpa only [heq] using devWrite_sameTree st file buf)
  cases ops with
  | tmpfs => exact tmpfsWrite_sameNames hw
  | initramfs =>
      obtain ⟨rfl, -⟩ := Prod.mk.inj (Option.some.inj hw)
      exact SameNames.refl st
  | uart => exact hdev (Option.some.inj hw)
  | framebuffer => exact hdev (Option.some.inj hw)

theorem tmpfsLseek64_sameTree (st : State) (file : ℕ) (offset whence : ℤ) :
    SameTree st (tmpfsLseek64 st file offset whence).1 := by
  rw [tmpfsLseek64]
  by_cases hbad : st.badFile file
  · rw [if_pos hbad]
    exact ⟨rfl, rfl, rfl, rfl⟩
  rw [if_neg hbad]
  dsimp only
  by_cases htype : (st.internal (st.files file).vnode).type ≠ .file
  · rw [if_pos htype]
    exact ⟨rfl, rfl, rfl, rfl⟩
  rw [if_neg htype]
  generalize (if whence = seekSet then some (0 : ℤ) else _) = base
  cases base with
  | none => exact ⟨rfl, rfl, rfl, rfl⟩
  | some base =>
      dsimp only
      split_ifs <;> exact ⟨rfl, rfl, rfl, rfl⟩

theorem devLseek64_sameTree (st : State) (file : ℕ) (offset whence : ℤ) :
    SameTree st (devLseek64 st file offset whence).1 := by
  rw [devLseek64]
  by_cases hnull : file = 0
  · rw [if_pos hnull]
    exact ⟨rfl, rfl, rfl, rfl⟩
  rw [if_neg hnull]
  dsimp only
  generalize (if whence = seekSet then some offset else _) = newPos
  cases newPos with
  | none => exact ⟨rfl, rfl, rfl, rfl⟩
  | some newPos =>
      dsimp only
      split_ifs <;> exact ⟨rfl, rfl, rfl, rfl⟩

theorem lseek64_sameTree (ops : FileOps) (st : State) (file : ℕ) (offset whence : ℤ) :
    SameTree st (ops.lseek64 st file offset whence).1 := by
  cases ops with
  | tmpfs => exact tmpfsLseek64_sameTree st file offset whence
  | initramfs => exact tmpfsLseek64_sameTree st file offset whence
  | uart => exact devLseek64_sameTree st file offset whence
  | framebuffer => exact devLseek64_sameTree st file offset whence

theorem vfsClose_sameTree (st : State) (file : ℕ) : SameTree st (vfsClose st file).1 := by
  rcases vfsClose_cases st file with ⟨r, heq, -⟩ | heq | heq <;>
  · rw [heq]
    exact ⟨rfl, rfl, rfl, rfl⟩

theorem vfsOpenVnode_sameTree (h : Tree st T) (hv : v ∈ T)
    (heq : vfsOpenVnode st flags v = some (st', r, file)) : SameTree st st' := by
  rcases vfsOpenVnode_grows h hv flags with ⟨st₁, r₁, heq₁, -, -, hsame⟩ | ⟨st₁, file₁, heq₁, -, hsame, -⟩ <;>
  · rw [heq] at heq₁
    have hst : st' = st₁ := congrArg Prod.fst (Option.some.inj heq₁)
    rw [hst]
    exact hsame

/-- Whatever `vfs_open` does, every vnode keeps its place. -/
theorem vfsOpen_places (h : Tree st T) (hcwd : cwd = 0 ∨ cwd ∈ T) (hnul : (0 : UInt8) ∉ path)
    (heq : vfsOpen st cwd (some path) flags target = some (st', r, file)) : Places st st' T := by
  rcases found_or_missing st cwd path with ⟨v, hfind⟩ | hmissing
  · obtain ⟨hext, hsame⟩ := afterFind_extends h hnul cwd
    have hv : v ∈ T := by
      have hmem := (h.lookupPath_mem hcwd hnul).1 (congrArg Prod.fst hfind)
      rwa [show (lookupPath st cwd path).2.2 = v from congrArg Prod.snd hfind] at hmem
    rw [vfsOpen_found hfind] at heq
    exact Places.of_sameTree (hsame.trans (vfsOpenVnode_sameTree (h.extend hext) hv heq))
  by_cases hcreat : oCreat flags
  swap
  · obtain ⟨st₁, r₁, heq₁, -, hsame⟩ := vfsOpen_plain h hnul hmissing hcreat target
    rw [heq] at heq₁
    have hst : st' = st₁ := congrArg Prod.fst (Option.some.inj heq₁)
    rw [hst]
    exact Places.of_sameTree hsame
  by_cases hask : ∃ dir ops, Asks st cwd path dir ops
  swap
  · obtain ⟨st₁, r₁, heq₁, -, -, hsame⟩ := vfsOpen_unasked h hnul hmissing
      (fun dir ops ha => hask ⟨dir, ops, ha⟩) hcreat target
    rw [heq] at heq₁
    have hst : st' = st₁ := congrArg Prod.fst (Option.some.inj heq₁)
    rw [hst]
    exact Places.of_sameTree hsame
  obtain ⟨dir, ops, ha⟩ := hask
  by_cases hacc : Accepts (whenAsked st cwd path) dir (newName path)
  · obtain ⟨st₁, v, hopen, hdir, -, hc, -⟩ := ha.accepted h hcwd hnul hacc hcreat target
    rw [hopen] at heq
    have hsame := vfsOpenVnode_sameTree (h.created hdir hc) (Set.mem_insert ..) heq
    exact (hc.frame h hdir).places.trans (Places.of_sameTree hsame) Set.Subset.rfl
  · have hr : Refused st cwd path dir ops := ⟨ha, hacc⟩
    obtain ⟨hext, hsame⟩ := hr.keeps h hnul
    rw [hr.runs h hcwd hnul hcreat] at heq
    split_ifs at heq with hstale
    have hmem := Refused.stale_mem h hcwd hnul hstale
    exact Places.of_sameTree (hsame.trans (vfsOpenVnode_sameTree (h.extend hext) hmem heq))

theorem vfsMkdir_places (h : Tree st T) (hcwd : cwd = 0 ∨ cwd ∈ T) (hnul : (0 : UInt8) ∉ path) :
    ∃ T', Grows st (vfsMkdir st cwd (some path)).1 T T' ∧
      Places st (vfsMkdir st cwd (some path)).1 T := by
  rcases vfsMkdir_cases h hcwd hnul with ⟨st', r, heq, -, hext⟩ | ⟨st', dir, v, heq, hdir, -, -, hc⟩
  · rw [heq]
    exact ⟨T, Grows.extend h hext, Places.extend h hext⟩
  · rw [heq]
    exact ⟨_, Grows.created h hdir hc, (hc.frame h hdir).places⟩

/-- A caller of the file system: the vnodes it may have as its `cwd`, and the handles it may use. -/
structure Caller where
  st : State
  cwds : Set ℕ
  files : Set ℕ

/-- A call with any paths, flags and data. A `cwd` has been looked up or is null, and a handle has been
opened and not freed, or is null. -/
inductive Call : Caller → Caller → Prop
  | lookup {c : Caller} {cwd v : ℕ} {path : List UInt8} (hcwd : cwd ∈ c.cwds) (hnul : (0 : UInt8) ∉ path)
      (hfind : LookupFinds c.st cwd path v) :
      Call c ⟨afterFind c.st cwd path, insert v c.cwds, c.files⟩
  | mkdir {c : Caller} {cwd : ℕ} {path : Option (List UInt8)} (hcwd : cwd ∈ c.cwds)
      (hnul : ∀ p ∈ path, (0 : UInt8) ∉ p) : Call c { c with st := (vfsMkdir c.st cwd path).1 }
  | open {c : Caller} {cwd : ℕ} {path : Option (List UInt8)} {flags : BitVec 32} {target file : ℕ}
      {st' : State} {r : ℤ} (hcwd : cwd ∈ c.cwds) (hnul : ∀ p ∈ path, (0 : UInt8) ∉ p)
      (heq : vfsOpen c.st cwd path flags target = some (st', r, file)) :
      Call c { c with st := st', files := if r = 0 then insert file c.files else c.files }
  | write {c : Caller} {file : ℕ} {buf : Option (List UInt8)} {st' : State} {r : ℤ}
      (hfile : file = 0 ∨ file ∈ c.files) (heq : vfsWrite c.st file buf = some (st', r)) :
      Call c { c with st := st' }
  | lseek {c : Caller} {file : ℕ} (hfile : file = 0 ∨ file ∈ c.files) (offset whence : ℤ) :
      Call c { c with st := (vfsLseek64 c.st file offset whence).1 }
  | close {c : Caller} {file : ℕ} (hfile : file = 0 ∨ file ∈ c.files) :
      Call c { c with
        st := (vfsClose c.st file).1
        files := {p ∈ c.files | (p, sizeofFile) ∈ (vfsClose c.st file).1.heap.live} }

variable {c c' : Caller}

structure Caller.Ok (c : Caller) (T : Set ℕ) : Prop where
  tree : Tree c.st T
  cwd : ∀ cwd ∈ c.cwds, cwd = 0 ∨ cwd ∈ T
  handle : ∀ p ∈ c.files, HandleOk c.st T p

theorem Caller.Ok.grows (h : c.Ok T) (hg : Grows c.st st' T T') : Caller.Ok { c with st := st' } T' where
  tree := hg.tree
  cwd cwd hcwd := (h.cwd cwd hcwd).imp_right fun hin => hg.subset hin
  handle p hp := (h.handle p hp).grows hg

structure Caller.Next (c c' : Caller) (T T' : Set ℕ) : Prop where
  ok : c'.Ok T'
  subset : T ⊆ T'
  places : Places c.st c'.st T

theorem Caller.Ok.same (h : c.Ok T) : Caller.Next c c T T := ⟨h, Set.Subset.rfl, Places.refl c.st T⟩

theorem Caller.Ok.lookup (h : c.Ok T) (hcwd : cwd ∈ c.cwds) (hnul : (0 : UInt8) ∉ path)
    (hfind : LookupFinds c.st cwd path v) :
    Caller.Next c ⟨afterFind c.st cwd path, insert v c.cwds, c.files⟩ T T := by
  obtain ⟨hext, hsame⟩ := afterFind_extends h.tree hnul cwd
  have hg := Grows.extend h.tree hext
  have hv : v ∈ T := by
    have hmem := (h.tree.lookupPath_mem (h.cwd cwd hcwd) hnul).1 (congrArg Prod.fst hfind)
    rwa [show (lookupPath c.st cwd path).2.2 = v from congrArg Prod.snd hfind] at hmem
  refine ⟨⟨hg.tree, ?_, (h.grows hg).handle⟩, Set.Subset.rfl, Places.of_sameTree hsame⟩
  rintro cwd (rfl | hin)
  · exact Or.inr hv
  · exact h.cwd cwd hin

theorem Caller.Ok.open (h : c.Ok T) {path : Option (List UInt8)} (hcwd : cwd ∈ c.cwds)
    (hnul : ∀ p ∈ path, (0 : UInt8) ∉ p)
    (heq : vfsOpen c.st cwd path flags target = some (st', r, file)) :
    ∃ T', Caller.Next c
      { c with st := st', files := if r = 0 then insert file c.files else c.files } T T' := by
  cases path with
  | none =>
      have hst := Option.some.inj heq
      obtain ⟨rfl, rfl, -⟩ : c.st = st' ∧ einval = r ∧ target = file := by simpa using hst
      rw [if_neg (by decide)]
      exact ⟨T, h.same⟩
  | some path =>
      have hplaces := vfsOpen_places h.tree (h.cwd cwd hcwd) (hnul path rfl) heq
      obtain ⟨T', hg, ⟨hr, -⟩ | ⟨rfl, v, hv, hnew⟩⟩ := vfsOpen_some h.tree (h.cwd cwd hcwd) (hnul path rfl) heq
      · rw [if_neg hr.ne]
        exact ⟨T', h.grows hg, hg.subset, hplaces⟩
      · rw [if_pos rfl]
        have hok := h.grows hg
        refine ⟨T', ⟨hg.tree, hok.cwd, ?_⟩, hg.subset, hplaces⟩
        rintro p (rfl | hp)
        · exact hnew.handleOk hg.tree hv
        · exact hok.handle p hp

theorem Caller.Ok.write (h : c.Ok T) {buf : Option (List UInt8)} (hfile : file = 0 ∨ file ∈ c.files)
    (heq : vfsWrite c.st file buf = some (st', r)) : Caller.Next c { c with st := st' } T T := by
  have hsame : ∀ r', some (c.st, r') = some (st', r) → Caller.Next c { c with st := st' } T T := by
    intro r' hst
    obtain ⟨rfl, -⟩ := Prod.mk.inj (Option.some.inj hst)
    exact h.same
  cases buf with
  | none => exact hsame _ heq
  | some bytes =>
      rw [vfsWrite] at heq
      split_ifs at heq with hnull hlen
      · exact hsame _ heq
      · exact hsame _ heq
      · cases hops : (c.st.files file).fOps with
        | none =>
            rw [hops] at heq
            exact hsame _ heq
        | some ops =>
            rw [hops] at heq
            have hhandle := h.handle file (hfile.resolve_left hnull)
            exact ⟨h.grows (write_grows h.tree hhandle hops heq), Set.Subset.rfl,
              (write_sameNames heq).places⟩

theorem Caller.Ok.lseek (h : c.Ok T) (file : ℕ) (offset whence : ℤ) :
    Caller.Next c { c with st := (vfsLseek64 c.st file offset whence).1 } T T := by
  rw [vfsLseek64]
  by_cases hnull : file = 0
  · rw [if_pos hnull]
    exact h.same
  rw [if_neg hnull]
  cases (c.st.files file).fOps with
  | none => exact h.same
  | some ops =>
      exact ⟨h.grows (lseek64_grows h.tree ops file offset whence), Set.Subset.rfl,
        Places.of_sameTree (lseek64_sameTree ops c.st file offset whence)⟩

theorem Caller.Ok.close (h : c.Ok T) (hfile : file = 0 ∨ file ∈ c.files) :
    Caller.Next c { c with
      st := (vfsClose c.st file).1
      files := {p ∈ c.files | (p, sizeofFile) ∈ (vfsClose c.st file).1.heap.live} } T T := by
  have hsame := vfsClose_sameTree c.st file
  refine ⟨⟨?_, h.cwd, ?_⟩, Set.Subset.rfl, Places.of_sameTree hsame⟩
  · rcases vfsClose_cases c.st file with ⟨r, heq, -⟩ | heq | heq
    · rw [heq]
      exact h.tree
    · rw [heq]
      exact h.tree.setFile file fun _ => ⟨0, 0, none, 0⟩
    · rcases hfile with rfl | hfile
      · rw [vfsClose, if_pos rfl]
        exact h.tree
      · rw [heq]
        exact h.tree.free_handle (h.handle file hfile).live
  · rintro p ⟨hp, hlive⟩
    rcases vfsClose_cases c.st file with ⟨r, heq, -⟩ | heq | heq
    · rw [heq] at hlive ⊢
      exact h.handle p hp
    · rw [heq] at hlive ⊢
      by_cases hpf : p = file
      · have hcleared : (c.st.setFile file fun _ => ⟨0, 0, none, 0⟩).files p = ⟨0, 0, none, 0⟩ := by
          rw [hpf]
          exact Function.update_self ..
        refine ⟨hlive, ?_, ?_⟩
        · rw [hcleared]
          exact Or.inl rfl
        · rw [hcleared]
          intro hops
          cases hops
      · exact (h.handle p hp).congr hlive (Function.update_of_ne hpf _ _) rfl
    · rw [heq] at hlive ⊢
      exact (h.handle p hp).congr hlive rfl rfl

/-- One call. -/
theorem Caller.Ok.call (h : c.Ok T) (hcall : Call c c') : ∃ T', Caller.Next c c' T T' := by
  cases hcall with
  | lookup hcwd hnul hfind => exact ⟨T, h.lookup hcwd hnul hfind⟩
  | @mkdir cwd path hcwd hnul =>
      cases path with
      | none => exact ⟨T, h.same⟩
      | some path =>
          obtain ⟨T', hg, hplaces⟩ := vfsMkdir_places h.tree (h.cwd cwd hcwd) (hnul path rfl)
          exact ⟨T', h.grows hg, hg.subset, hplaces⟩
  | «open» hcwd hnul heq => exact h.open hcwd hnul heq
  | write hfile heq => exact ⟨T, h.write hfile heq⟩
  | lseek hfile offset whence => exact ⟨T, h.lseek _ offset whence⟩
  | close hfile => exact ⟨T, h.close hfile⟩

/-- Any number of calls. -/
theorem Caller.Ok.run (h : c.Ok T) (hrun : ReflTransGen Call c c') : ∃ T', Caller.Next c c' T T' := by
  induction hrun with
  | refl => exact ⟨T, h.same⟩
  | tail _ hcall ih =>
      obtain ⟨T₁, h₁⟩ := ih
      obtain ⟨T₂, h₂⟩ := h₁.ok.call hcall
      exact ⟨T₂, h₂.ok, h₁.subset.trans h₂.subset, h₁.places.trans h₂.places h₁.subset⟩

def Sys.caller (s : Sys) : Caller where
  st := s.st
  cwds := {cwd | cwd = 0 ∨ ∃ t, cwd = (s.tasks t).cwd}
  files := {p | p ≠ 0 ∧ ∃ t i, p = (s.tasks t).fdTable i}

theorem Sys.Inv.caller {s : Sys} (h : s.Inv T) : s.caller.Ok T where
  tree := h.tree
  cwd := by
    rintro cwd (rfl | ⟨t, rfl⟩)
    · exact Or.inl rfl
    · exact h.cwd t
  handle := by
    rintro p ⟨hp, t, i, rfl⟩
    exact h.handle t i hp

structure SamePlace (st st' : State) (v : ℕ) : Prop where
  name : (st'.internal v).name = (st.internal v).name
  type : (st'.internal v).type = (st.internal v).type
  parent : (st'.vnodes v).parent = (st.vnodes v).parent

/-- A path that leads to a vnode still leads to it after any number of calls, unless the lookup finds no
memory for its copy of the path. -/
theorem namespace_only_grows {s : Sys} (hs : s.Reachable) (hrun : ReflTransGen Call s.caller c)
    (hcwd : cwd ∈ s.caller.cwds) (hnul : (0 : UInt8) ∉ path) (hfind : LookupFinds s.st cwd path v) :
    (CopyOk c.st path → LookupFinds c.st cwd path v) ∧
      (¬ CopyOk c.st path → (lookupPath c.st cwd path).2.1 = enomem) ∧ SamePlace s.st c.st v := by
  obtain ⟨T, h⟩ := hs.inv
  obtain ⟨T', hnext⟩ := h.caller.run hrun
  have hcwd' := h.caller.cwd cwd hcwd
  obtain ⟨-, hres⟩ := (lookupFinds_iff hnul).1 hfind
  have hv : v ∈ T := h.tree.resolvePath_mem hcwd' hres
  refine ⟨fun hcopy => (lookupFinds_iff hnul).2 ⟨hcopy, ?_⟩, fun hcopy => ?_, ?_⟩
  · exact hnext.places.resolvePath h.tree hnext.ok.tree hnext.subset hcwd' hres
  · rw [lookupPath_no_copy hcopy]
  · exact ⟨hnext.places.name v hv, hnext.places.type v hv, hnext.places.parent v hv⟩

theorem Call.mkdirAt (c : Caller) (h : 0 ∈ c.cwds) (hnul : (0 : UInt8) ∉ path) :
    Call c { c with st := (vfsMkdir c.st 0 (some path)).1 } :=
  Call.mkdir h fun p hp => by
    rw [← Option.some.inj hp]
    exact hnul

/-- The vnode of `/a`. -/
def Sys.dirA : ℕ := (lookupPath Sys.withDir.st 0 [47, 97]).2.2

theorem Sys.finds_dirA : LookupFinds Sys.withDir.st 0 [47, 97] Sys.dirA := by
  have hcode : (lookupPath Sys.withDir.st 0 [47, 97]).2.1 = 0 := by decide
  exact Prod.ext hcode rfl

/-- Below it the directory `/a/b` is made. -/
theorem namespace_only_grows_below :
    let st' := (vfsMkdir Sys.withDir.st 0 (some [47, 97, 47, 98])).1
    (CopyOk st' [47, 97] → LookupFinds st' 0 [47, 97] Sys.dirA) ∧
      (¬ CopyOk st' [47, 97] → (lookupPath st' 0 [47, 97]).2.1 = enomem) ∧
      SamePlace Sys.withDir.st st' Sys.dirA :=
  have hnul : (0 : UInt8) ∉ [47, 97, 47, 98] := by decide
  namespace_only_grows Sys.withDir_reachable
    (ReflTransGen.single (Call.mkdirAt Sys.withDir.caller (Or.inl rfl) hnul)) (Or.inl rfl) (by decide)
    Sys.finds_dirA

def State.cramped : State :=
  { State.blank with heap := ⟨[], fun n => if n < 8 then 4096 * (n + 1) else 0, 0⟩ }

theorem State.cramped_mounts : (mountRoot State.cramped).isSome := by decide

def Sys.cramped : Sys := ⟨(mountRoot State.cramped).get State.cramped_mounts, fun _ => Task.idle⟩

theorem Sys.cramped_reachable : Sys.cramped.Reachable :=
  ⟨Sys.cramped, ⟨State.cramped, ⟨⟨List.Pairwise.nil, nofun, nofun⟩, rfl⟩,
    (Option.some_get State.cramped_mounts).symm, fun _ => rfl⟩, ReflTransGen.refl⟩

/-- The directory `/a` takes the last memory, and the path `/` is not found any more. -/
theorem namespace_lookup_out_of_memory :
    let st' := (vfsMkdir Sys.cramped.st 0 (some [47, 97])).1
    Sys.cramped.Reachable ∧ ReflTransGen Call Sys.cramped.caller { Sys.cramped.caller with st := st' } ∧
      LookupFinds Sys.cramped.st 0 [47] Sys.cramped.st.root ∧
      ¬ ∃ v, LookupFinds st' 0 [47] v := by
  intro st'
  have hcode : (lookupPath st' 0 [47]).2.1 = enomem := by decide
  have hcall := Call.mkdirAt Sys.cramped.caller (Or.inl rfl) (by decide : (0 : UInt8) ∉ [47, 97])
  refine ⟨Sys.cramped_reachable, ReflTransGen.single hcall,
    Prod.ext (by decide) (by decide), fun ⟨v, hfind⟩ => ?_⟩
  have hzero := congrArg Prod.fst hfind
  rw [hcode] at hzero
  exact absurd hzero (show enomem ≠ 0 by decide)

end OscKernel.Vfs
