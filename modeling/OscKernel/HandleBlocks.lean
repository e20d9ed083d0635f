import OscKernel.OpenOutcomes

/-!
# The blocks of file handles

`vfs_open` allocates a handle. The files of the memory file systems keep it, and their `close` clears it
and does not free it. A device takes a second block for its handle and frees that one in `close`; the first
is lost. So opening and closing a file leaves a block behind whenever the first allocation succeeds.
-/

namespace OscKernel.Vfs

open Relation

variable {st st₁ st' st'' : State} {T : Set ℕ} {v file cwd target p : ℕ} {path : List UInt8}
  {flags : BitVec 32} {ops : FileOps} {r : ℤ}

def FileOps.device : FileOps → Prop
  | .tmpfs | .initramfs => False
  | .uart | .framebuffer => True

/-- A call of `vfs_read`, `vfs_write` or `vfs_lseek64` on a handle; a write does not make a file grow. -/
inductive FileUse (file : ℕ) : State → State → Prop
  | read {st : State} (buf : Bool) (len : ℕ) (port : List UInt8) :
      FileUse file st (vfsRead st file buf len port).1
  | write {st st' : State} {r : ℤ} (buf : Option (List UInt8)) (heq : vfsWrite st file buf = some (st', r))
      (hsize : ∀ n, (st'.nodes n).size = (st.nodes n).size) : FileUse file st st'
  | lseek {st : State} (offset whence : ℤ) : FileUse file st (vfsLseek64 st file offset whence).1

def SameBlocks (st st' : State) : Prop := ∀ b, b ∈ st'.heap.live ↔ b ∈ st.heap.live

def OpenConserves (st : State) (cwd : ℕ) (path : List UInt8) (flags : BitVec 32) (target : ℕ) : Prop :=
  ∀ st' r file, vfsOpen st cwd (some path) flags target = some (st', r, file) →
    (r ≠ 0 → SameBlocks st st') ∧
      (r = 0 → ∀ st'', ReflTransGen (FileUse file) st' st'' → SameBlocks st (vfsClose st'' file).1)

/-- The calls on an open device move the position of its handle at most. -/
theorem FileUse.device (h : FileUse file st st') (hops : (st.files file).fOps = some ops)
    (hdev : ops.device) : st'.heap = st.heap ∧ (st'.files file).fOps = some ops := by
  have hset : ∀ g : File → ℕ, (st.setFile file fun e => { e with fPos := g e }).heap = st.heap ∧
      ((st.setFile file fun e => { e with fPos := g e }).files file).fOps = some ops := by
    intro g
    refine ⟨rfl, ?_⟩
    simp only [State.setFile, Function.update_self]
    exact hops
  have hwrite : ∀ buf, (devWrite st file buf).1.heap = st.heap ∧
      ((devWrite st file buf).1.files file).fOps = some ops := by
    intro buf
    cases buf with
    | none => exact ⟨rfl, hops⟩
    | some bytes =>
        rw [devWrite]
        split_ifs
        · exact ⟨rfl, hops⟩
        · exact hset fun e => (e.fPos + bytes.length) % 2 ^ 64
  have hlseek : ∀ offset whence, (devLseek64 st file offset whence).1.heap = st.heap ∧
      ((devLseek64 st file offset whence).1.files file).fOps = some ops := by
    intro offset whence
    rw [devLseek64]
    by_cases hnull : file = 0
    · rw [if_pos hnull]
      exact ⟨rfl, hops⟩
    rw [if_neg hnull]
    dsimp only
    generalize (if whence = seekSet then some offset else _) = newPos
    cases newPos with
    | none => exact ⟨rfl, hops⟩
    | some newPos =>
        dsimp only
        split_ifs
        · exact ⟨rfl, hops⟩
        · exact hset fun _ => newPos.toNat
  cases h with
  | read buf len port =>
      rw [vfsRead]
      split_ifs
      · exact ⟨rfl, hops⟩
      · exact ⟨rfl, hops⟩
      rw [hops]
      cases ops with
      | tmpfs => exact hdev.elim
      | initramfs => exact hdev.elim
      | uart =>
          change (devUartRead st file buf len port).1.heap = _ ∧ _
          simp only [FileOps.read, devUartRead]
          split_ifs
          · exact ⟨rfl, hops⟩
          · exact hset fun e => (e.fPos + ((port.take len).takeWhile (· ≠ 0)).length) % 2 ^ 64
      | framebuffer => exact ⟨rfl, hops⟩
  | @write _ r buf heq hsize =>
      have hsame : ∀ r', some (st, r') = some (st', r) →
          st'.heap = st.heap ∧ (st'.files file).fOps = some ops := by
        intro r' hst
        obtain ⟨rfl, -⟩ := Prod.mk.inj (Option.some.inj hst)
        exact ⟨rfl, hops⟩
      cases buf with
      | none => exact hsame _ heq
      | some bytes =>
          rw [vfsWrite] at heq
          split_ifs at heq
          · exact hsame _ heq
          · exact hsame _ heq
          rw [hops] at heq
          cases ops with
          | tmpfs => exact hdev.elim
          | initramfs => exact hdev.elim
          | uart =>
              have hst : devWrite st file (some bytes) = (st', r) := Option.some.inj heq
              simpa only [hst] using hwrite (some bytes)
          | framebuffer =>
              have hst : devWrite st file (some bytes) = (st', r) := Option.some.inj heq
              simpa only [hst] using hwrite (some bytes)
  | lseek offset whence =>
      rw [vfsLseek64]
      split_ifs
      · exact ⟨rfl, hops⟩
      rw [hops]
      cases ops with
      | tmpfs => exact hdev.elim
      | initramfs => exact hdev.elim
      | uart => exact hlseek offset whence
      | framebuffer => exact hlseek offset whence

theorem FileUse.device_run (h : ReflTransGen (FileUse file) st st')
    (hops : (st.files file).fOps = some ops) (hdev : ops.device) :
    st'.heap = st.heap ∧ (st'.files file).fOps = some ops := by
  induction h with
  | refl => exact ⟨rfl, hops⟩
  | tail _ hstep ih =>
      obtain ⟨hheap, hops'⟩ := hstep.device ih.2 hdev
      exact ⟨hheap.trans ih.1, hops'⟩

theorem vfsClose_device (hfile : file ≠ 0) (hops : (st.files file).fOps = some ops) (hdev : ops.device) :
    (vfsClose st file).1 = st.free file := by
  rw [vfsClose, if_neg hfile, hops]
  cases ops with
  | tmpfs => exact hdev.elim
  | initramfs => exact hdev.elim
  | uart => exact congrArg Prod.fst (if_neg hfile)
  | framebuffer => exact congrArg Prod.fst (if_neg hfile)

theorem vfsClose_file (hops : (st.files file).fOps = some ops) (hdev : ¬ ops.device) :
    (vfsClose st file).1.heap = st.heap := by
  by_cases hfile : file = 0
  · rw [vfsClose, if_pos hfile]
  rw [vfsClose, if_neg hfile, hops]
  have hclear : (tmpfsClose st file).1.heap = st.heap := by
    rw [tmpfsClose, if_neg hfile]
    rfl
  cases ops with
  | tmpfs => exact hclear
  | initramfs => exact hclear
  | uart => exact absurd trivial hdev
  | framebuffer => exact absurd trivial hdev

theorem FileOps.open_file (hdev : ¬ ops.device) (st : State) (v target : ℕ) :
    ops.open st v target = ((tmpfsOpen st v target).1, (tmpfsOpen st v target).2, target) := by
  cases ops with
  | tmpfs => rfl
  | initramfs => rfl
  | uart => exact absurd trivial hdev
  | framebuffer => exact absurd trivial hdev

theorem FileOps.open_device (hdev : ops.device) (st : State) (v target : ℕ) :
    ops.open st v target = devOpen ops st v := by
  cases ops with
  | tmpfs => exact hdev.elim
  | initramfs => exact hdev.elim
  | uart => rfl
  | framebuffer => rfl

theorem free_null_live (hok : st.heap.Ok) : (st.free 0).heap.live = st.heap.live :=
  List.filter_eq_self.2 fun b hb => by simpa using (hok.start_pos b hb).ne'

/-- A device opens with its second block. -/
theorem devOpen_cases (hok : st.heap.Ok) (ops : FileOps) (v : ℕ) :
    (∃ st', devOpen ops st v = (st', enomem, 0) ∧ st'.heap.Ok ∧ st'.heap.live = st.heap.live) ∨
      ∃ st' file, devOpen ops st v = (st', 0, file) ∧ file ≠ 0 ∧ Extends.Fresh st file ∧
        (st'.files file).fOps = some ops ∧ st'.heap.live = (file, sizeofFile) :: st.heap.live := by
  rcases alloc_file hok with ⟨st₁, heq, hopens⟩ | ⟨st₁, file, heq, hfile, hfresh, hopens⟩
  · refine Or.inl ⟨st₁, ?_, hopens.extend.ok, hopens.extend.live⟩
    simp only [devOpen, heq, if_true]
  · refine Or.inr ⟨st₁.setFile file fun e => { e with vnode := v, fPos := 0, fOps := some ops }, file, ?_,
      hfile, hfresh, ?_, hopens.extend.live⟩
    · simp only [devOpen, heq, if_neg hfile]
    · simp only [State.setFile, Function.update_self]

/-- What `vfs_open` makes of the blocks when its own allocation fails: nothing is opened, or a device has
its handle. -/
theorem vfsOpenVnode_without (hok : st.heap.Ok) (hv : v ≠ 0) (hops : (st.vnodes v).fOps = some ops)
    (h0 : (st.alloc sizeofFile).2 = 0) (flags : BitVec 32) :
    (∃ st' r, vfsOpenVnode st flags v = some (st', r, 0) ∧ r < 0 ∧ st'.heap.live = st.heap.live) ∨
      ∃ st' file, vfsOpenVnode st flags v = some (st', 0, file) ∧ ops.device ∧ file ≠ 0 ∧
        Extends.Fresh st file ∧ (st'.files file).fOps = some ops ∧
          st'.heap.live = (file, sizeofFile) :: st.heap.live := by
  rcases alloc_file hok with ⟨st₁, heq, hopens⟩ | ⟨st₁, p, heq, hp, -⟩
  swap
  · rw [heq] at h0
    exact absurd h0 hp
  have hops₁ : (st₁.vnodes v).fOps = some ops := by rw [hopens.same.vnodes, hops]
  have hlive₁ : st₁.heap.live = st.heap.live := hopens.extend.live
  by_cases hdev : ops.device
  · rcases devOpen_cases hopens.extend.ok ops v with
      ⟨st₂, heq₂, hok₂, hlive₂⟩ | ⟨st₂, file, heq₂, hfile, hfresh, hfops, hlive₂⟩
    · refine Or.inl ⟨st₂.free 0, enomem, ?_, by decide, ?_⟩
      · simp only [vfsOpenVnode, heq, if_neg hv, hops₁, FileOps.open_device hdev, heq₂]
        rfl
      · rw [free_null_live hok₂, hlive₂, hlive₁]
    · refine Or.inr ⟨st₂.setFile file fun e => { e with flags := flags }, file, ?_, hdev, hfile, ?_, ?_, ?_⟩
      · simp only [vfsOpenVnode, heq, if_neg hv, hops₁, FileOps.open_device hdev, heq₂]
        rfl
      · exact fun b hb => hfresh b (hlive₁ ▸ hb)
      · simp only [State.setFile, Function.update_self]
        exact hfops
      · rw [← hlive₁]
        exact hlive₂
  · refine Or.inl ⟨st₁.free 0, einval, ?_, by decide, ?_⟩
    · have hnull : tmpfsOpen st₁ v 0 = (st₁, einval) := if_pos (Or.inr rfl)
      simp only [vfsOpenVnode, heq, if_neg hv, hops₁, FileOps.open_file hdev, hnull]
      rfl
    · rw [free_null_live hopens.extend.ok, hlive₁]

/-- A handle that `vfs_open` has allocated is never freed. -/
theorem vfsOpenVnode_loses (hok : st.heap.Ok) (hv : v ≠ 0) (hops : (st.vnodes v).fOps = some ops)
    (hp : (st.alloc sizeofFile).2 ≠ 0) (flags : BitVec 32) :
    ∃ st' r file, vfsOpenVnode st flags v = some (st', r, file) ∧
      Extends.Fresh st (st.alloc sizeofFile).2 ∧
      (r ≠ 0 → ((st.alloc sizeofFile).2, sizeofFile) ∈ st'.heap.live) ∧
      (r = 0 → ((st.alloc sizeofFile).2, sizeofFile) ∈ (vfsClose st' file).1.heap.live) := by
  rcases alloc_file hok with ⟨st₁, heq, -⟩ | ⟨st₁, p, heq, hp0, hfresh, hopens⟩
  · rw [heq] at hp
    exact absurd rfl hp
  have hops₁ : (st₁.vnodes v).fOps = some ops := by rw [hopens.same.vnodes, hops]
  have hlive₁ : (p, sizeofFile) ∈ st₁.heap.live := by
    rw [hopens.extend.live]
    exact List.mem_cons_self
  rw [heq]
  by_cases hdev : ops.device
  · rcases devOpen_cases hopens.extend.ok ops v with
      ⟨st₂, heq₂, hok₂, hlive₂⟩ | ⟨st₂, file, heq₂, hfile, hfresh₂, hfops, hlive₂⟩
    · refine ⟨st₂.free 0, enomem, 0, ?_, hfresh, fun _ => ?_, fun h => absurd h (by decide)⟩
      · simp only [vfsOpenVnode, heq, if_neg hv, hops₁, FileOps.open_device hdev, heq₂]
        rfl
      · rw [free_null_live hok₂, hlive₂]
        exact hlive₁
    · refine ⟨st₂.setFile file fun e => { e with flags := flags }, 0, file, ?_, hfresh,
        fun h => absurd rfl h, fun _ => ?_⟩
      · simp only [vfsOpenVnode, heq, if_neg hv, hops₁, FileOps.open_device hdev, heq₂]
        rfl
      · have hset : ((st₂.setFile file fun e => { e with flags := flags }).files file).fOps = some ops := by
          simp only [State.setFile, Function.update_self]
          exact hfops
        rw [vfsClose_device hfile hset hdev]
        refine Heap.mem_free.2 ⟨?_, hfresh₂ _ hlive₁⟩
        change (p, sizeofFile) ∈ st₂.heap.live
        rw [hlive₂]
        exact List.mem_cons_of_mem _ hlive₁
  · have hnull : ¬ (v = 0 ∨ p = 0) := fun h => h.elim hv hp0
    refine ⟨(st₁.setFile p fun e => { e with fPos := 0, vnode := v, fOps := (st₁.vnodes v).fOps }).setFile
      p fun e => { e with flags := flags }, 0, p, ?_, hfresh, fun h => absurd rfl h, fun _ => ?_⟩
    · simp only [vfsOpenVnode, heq, if_neg hv, hops₁, FileOps.open_file hdev, tmpfsOpen, if_neg hnull]
      rfl
    · rw [vfsClose_file ?_ hdev]
      · exact hlive₁
      · simp only [State.setFile, Function.update_self]
        exact hops₁

theorem SameBlocks.of_live (h : st'.heap.live = st.heap.live) : SameBlocks st st' := fun b => by rw [h]

/-- A call that ends in one state only. -/
theorem openConserves_of_eq {r : ℤ} (heq : vfsOpen st cwd (some path) flags target = some (st', r, file))
    (hfail : r ≠ 0 → SameBlocks st st')
    (hdone : r = 0 → ∀ st'', ReflTransGen (FileUse file) st' st'' → SameBlocks st (vfsClose st'' file).1) :
    OpenConserves st cwd path flags target := by
  intro st₁ r₁ file₁ heq₁
  rw [heq] at heq₁
  obtain ⟨rfl, rfl, rfl⟩ : st' = st₁ ∧ r = r₁ ∧ file = file₁ := by simpa using heq₁
  exact ⟨hfail, hdone⟩

/-- A new block that is still in use after the file was closed. -/
theorem not_openConserves {b : ℕ × ℕ} (hnew : b ∉ st.heap.live) {r : ℤ}
    (heq : vfsOpen st cwd (some path) flags target = some (st', r, file))
    (hfail : r ≠ 0 → b ∈ st'.heap.live) (hdone : r = 0 → b ∈ (vfsClose st' file).1.heap.live) :
    ¬ OpenConserves st cwd path flags target := by
  intro hcons
  obtain ⟨h₁, h₂⟩ := hcons st' r file heq
  by_cases hr : r = 0
  · exact hnew ((h₂ hr st' ReflTransGen.refl b).1 (hdone hr))
  · exact hnew ((h₁ hr b).1 (hfail hr))

/-- The lookup finds the node: exactly the failure of the allocation of a handle conserves the heap. -/
theorem openConserves_found (h : Tree st T) (hcwd : cwd = 0 ∨ cwd ∈ T) (hnul : (0 : UInt8) ∉ path)
    (hfind : LookupFinds st cwd path v) :
    OpenConserves st cwd path flags target ↔ ((afterFind st cwd path).alloc sizeofFile).2 = 0 := by
  have hext := (afterFind_extends h hnul cwd).1
  have htree := h.extend hext
  have hlive : (afterFind st cwd path).heap.live = st.heap.live := hext.live
  have hv : v ∈ T := h.resolvePath_mem hcwd ((lookupFinds_iff hnul).1 hfind).2
  obtain ⟨ops, hops⟩ := Option.ne_none_iff_exists'.1 (htree.fOps v hv).1
  have hopen := vfsOpen_found hfind flags target
  by_cases h0 : ((afterFind st cwd path).alloc sizeofFile).2 = 0
  · refine iff_of_true ?_ h0
    rcases vfsOpenVnode_without htree.heap (htree.ne_zero hv) hops h0 flags with
      ⟨st', r, heq, hr, hlive'⟩ | ⟨st', file, heq, hdev, hfile, hfresh, hfops, hlive'⟩
    · refine openConserves_of_eq (hopen.trans heq) (fun _ => ?_) fun hr0 => absurd hr0 hr.ne
      exact SameBlocks.of_live (hlive'.trans hlive)
    · refine openConserves_of_eq (hopen.trans heq) (fun hr => absurd rfl hr) fun _ st'' huse => ?_
      obtain ⟨hheap, hfops''⟩ := FileUse.device_run huse hfops hdev
      rw [vfsClose_device hfile hfops'' hdev]
      refine SameBlocks.of_live ?_
      have hkeep : ∀ b ∈ st.heap.live, b.1 ≠ file := fun b hb => hfresh b (hlive ▸ hb)
      change st''.heap.live.filter _ = _
      rw [hheap, hlive', hlive, List.filter_cons_of_neg (by simp), List.filter_eq_self]
      exact fun b hb => by simpa using hkeep b hb
  · refine iff_of_false ?_ h0
    obtain ⟨st', r, file, heq, hfresh, hfail, hdone⟩ :=
      vfsOpenVnode_loses htree.heap (htree.ne_zero hv) hops h0 flags
    refine not_openConserves (fun hmem => ?_) (hopen.trans heq) hfail hdone
    exact hfresh _ (hlive ▸ hmem) rfl

/-- A creation leaves its vnode. -/
theorem not_openConserves_made (h : Tree st T) (hcwd : cwd = 0 ∨ cwd ∈ T) (hnul : (0 : UInt8) ∉ path)
    (hcreat : oCreat flags) (hmake : CanMake st cwd path) : ¬ OpenConserves st cwd path flags target := by
  obtain ⟨dir, ops, ha, hacc⟩ := hmake
  obtain ⟨st₁, v, hopen, hdir, -, hc, -⟩ := ha.accepted h hcwd hnul hacc hcreat target
  have htree := h.created hdir hc
  have hnew : (v, sizeofVnode) ∉ st.heap.live := by
    obtain ⟨-, st₂, n, data, -, -, hext, -⟩ := hc
    exact fun hmem => hext.fresh List.mem_cons_self _ hmem rfl
  have hmade : (v, sizeofVnode) ∈ st₁.heap.live := htree.vnode v (Set.mem_insert ..)
  rcases vfsOpenVnode_grows htree (Set.mem_insert ..) flags with
    ⟨st', r, heq, hr, hg, -⟩ | ⟨st', file, heq, hg, -, hhandle⟩
  · refine not_openConserves hnew (hopen.trans heq) (fun _ => ?_) fun hr0 => absurd hr0 hr.ne
    exact hg.tree.vnode v (hg.subset (Set.mem_insert ..))
  · have hlive' := hg.tree.vnode v (hg.subset (Set.mem_insert ..))
    refine not_openConserves hnew (hopen.trans heq) (fun hr => absurd rfl hr) fun _ => ?_
    rcases vfsClose_cases st' file with ⟨r, hclose, -⟩ | hclose | hclose <;> rw [hclose]
    · exact hlive'
    · exact hlive'
    · exact Heap.mem_free.2 ⟨hlive', hhandle.fresh _ hmade⟩

/-- The lookup has no memory for its copy: exactly the creation of a second node changes the blocks. -/
theorem openConserves_missing (h : Tree st T) (hcwd : cwd = 0 ∨ cwd ∈ T) (hnul : (0 : UInt8) ∉ path)
    (hcopy : ¬ CopyOk st path) : OpenConserves st cwd path flags target ↔
      ¬ (oCreat flags ∧ CanMake st cwd path) := by
  have hlook := lookupPath_no_copy hcopy cwd
  have hmissing : (lookupPath st cwd path).2.1 ≠ 0 := by
    rw [hlook]
    exact (by decide : enomem ≠ 0)
  by_cases hcreat : oCreat flags
  swap
  · refine iff_of_true ?_ fun hc => hcreat hc.1
    refine openConserves_of_eq (vfsOpen_missing hmissing hcreat target) (fun _ => ?_)
      fun h0 => absurd h0 hmissing
    exact SameBlocks.of_live (afterFind_extends h hnul cwd).1.live
  by_cases hmake : CanMake st cwd path
  · exact iff_of_false (not_openConserves_made h hcwd hnul hcreat hmake) fun hno => hno ⟨hcreat, hmake⟩
  refine iff_of_true ?_ fun hc => hmake hc.2
  by_cases hask : ∃ dir ops, Asks st cwd path dir ops
  swap
  · obtain ⟨st', r, heq, hr, hext, -⟩ := vfsOpen_unasked h hnul hmissing
      (fun dir ops ha => hask ⟨dir, ops, ha⟩) hcreat target
    exact openConserves_of_eq heq (fun _ => SameBlocks.of_live hext.live) fun hr0 => absurd hr0 hr.ne
  obtain ⟨dir, ops, ha⟩ := hask
  have hr : Refused st cwd path dir ops := ⟨ha, fun hacc => hmake ⟨dir, ops, ha, hacc⟩⟩
  have hstale : staleVnode st cwd path ops = 0 := by
    rw [staleVnode, refusedVnode, hlook]
    split_ifs <;> rfl
  intro st' r file heq
  rw [hr.runs h hcwd hnul hcreat, if_pos hstale] at heq
  cases heq

/-- Opening and closing an existing node conserves the heap exactly when no handle is allocated, and no
second node is made. -/
theorem open_conserves_iff {s : Sys} (hs : s.Reachable) (t : ℕ) (hnul : (0 : UInt8) ∉ path)
    (hnode : resolvePath s.st (s.tasks t).cwd path = .ok v) (flags : BitVec 32) (target : ℕ) :
    OpenConserves s.st (s.tasks t).cwd path flags target ↔
      (CopyOk s.st path → ((afterFind s.st (s.tasks t).cwd path).alloc sizeofFile).2 = 0) ∧
        (¬ CopyOk s.st path → ¬ (oCreat flags ∧ CanMake s.st (s.tasks t).cwd path)) := by
  obtain ⟨T, hinv⟩ := hs.inv
  by_cases hcopy : CopyOk s.st path
  · rw [openConserves_found hinv.tree (hinv.cwd t) hnul ((lookupFinds_iff hnul).2 ⟨hcopy, hnode⟩)]
    exact ⟨fun h0 => ⟨fun _ => h0, fun h => absurd hcopy h⟩, fun h => h.1 hcopy⟩
  · rw [openConserves_missing hinv.tree (hinv.cwd t) hnul hcopy]
    exact ⟨fun hno => ⟨fun h => absurd h hcopy, fun _ => hno⟩, fun h => h.2 hcopy⟩

/-- The root of a system after the start. -/
theorem open_conserves_iff_root :
    OpenConserves Sys.blank.st (Sys.blank.tasks 0).cwd [47] 0 0 ↔
      (CopyOk Sys.blank.st [47] →
        ((afterFind Sys.blank.st (Sys.blank.tasks 0).cwd [47]).alloc sizeofFile).2 = 0) ∧
      (¬ CopyOk Sys.blank.st [47] →
        ¬ (oCreat 0 ∧ CanMake Sys.blank.st (Sys.blank.tasks 0).cwd [47])) :=
  open_conserves_iff (v := Sys.blank.st.root) Sys.blank_reachable 0 (by decide) (by rfl) 0 0

/-- Opening the root and closing it again leaves a handle behind. -/
theorem open_close_leaks :
    Sys.blank.Reachable ∧ ¬ OpenConserves Sys.blank.st (Sys.blank.tasks 0).cwd [47] 0 0 := by
  refine ⟨Sys.blank_reachable, fun hcons => ?_⟩
  have hroom := ((open_conserves_iff (v := Sys.blank.st.root) Sys.blank_reachable 0 (by decide) (by rfl) 0
    0).1 hcons).1 (by decide)
  revert hroom
  decide

end OscKernel.Vfs
