import OscKernel.Syscalls
import OscKernel.TmpfsRefines
import OscKernel.VfsOpen

/-!
# Reading and writing

The calls on an open file keep the tree: writing may move the data of a file to a larger block, and
nothing else moves.
-/

namespace OscKernel.Vfs

variable {st st₁ st' : State} {T : Set ℕ} {v n file required : ℕ} {bytes : List UInt8} {r : ℤ}

/-- A loop that ends has found a multiple of the first capacity by a power of two. -/
theorem doubleCapacity_pow (hreq : 0 < required) {fuel c c' : ℕ}
    (hc : c = 0 ∨ ∃ k, c = defaultFileSize * 2 ^ k)
    (h : doubleCapacity required fuel c = some c') : ∃ k, c' = defaultFileSize * 2 ^ k := by
  induction fuel generalizing c with
  | zero => cases h
  | succ fuel ih =>
      rw [doubleCapacity] at h
      split_ifs at h with hlt
      · refine ih ?_ h
        rcases hc with rfl | ⟨k, rfl⟩
        · exact Or.inl rfl
        · have hpow : defaultFileSize * 2 ^ k * 2 = 2 ^ (k + 13) := by
            rw [pow_add, defaultFileSize]
            ring
          rw [hpow]
          by_cases hk : k + 13 < 64
          · refine Or.inr ⟨k + 1, ?_⟩
            rw [Nat.mod_eq_of_lt (Nat.pow_lt_pow_right (by norm_num) hk), ← hpow]
            ring
          · exact Or.inl (Nat.mod_eq_zero_of_dvd (pow_dvd_pow 2 (by omega)))
      · rcases hc with rfl | ⟨k, rfl⟩
        · omega
        · exact ⟨k, (Option.some.inj h).symm⟩

/-- Growing a file of the tree. -/
theorem Tree.tmpfsGrow (h : Tree st T) (hv : v ∈ T) (hf : IsDataFile st v) (hreq : 0 < required)
    {ok : Bool} (hgrow : tmpfsGrow st (st.vnodes v).internal required = some (st', ok)) :
    Tree st' T ∧ st'.vnodes = st.vnodes ∧ st'.files = st.files ∧ st'.root = st.root ∧
      MountsKept st st' T T ∧
      ∀ p, (p, sizeofFile) ∈ st.heap.live → (p, sizeofFile) ∈ st'.heap.live := by
  obtain ⟨hold, k, hk⟩ := h.data v hv hf
  have hpos : 0 < (st.internal v).capacity := h.heap.size_pos _ hold
  have hdata : (st.internal v).data ≠ 0 := (h.heap.start_pos _ hold).ne'
  simp only [State.internal] at hk hpos hdata hold
  have hbig : defaultFileSize ≤ (st.nodes (st.vnodes v).internal).capacity := by
    rw [hk]
    exact Nat.le_mul_of_pos_right _ (by positivity)
  simp only [Vfs.tmpfsGrow, if_pos hpos, Option.bind_eq_bind] at hgrow
  obtain ⟨c, hc, hgrow⟩ := Option.bind_eq_some_iff.1 hgrow
  obtain ⟨j, rfl⟩ := doubleCapacity_pow hreq (Or.inr ⟨k, hk⟩) hc
  by_cases hlt : (st.nodes (st.vnodes v).internal).capacity < defaultFileSize * 2 ^ j
  swap
  · rw [if_neg hlt] at hgrow
    obtain ⟨rfl, -⟩ := Prod.mk.inj (Option.some.inj hgrow)
    exact ⟨h, rfl, rfl, rfl, MountsKept.refl st T, fun _ hp => hp⟩
  rw [if_pos hlt] at hgrow
  rcases st.heap.alloc_cases (defaultFileSize * 2 ^ j) with
    ⟨hp, halloc, hlive⟩ | ⟨hp, p, halloc, hp0, hn0, -, hapart, hlive⟩
  · have hok : hp.Ok := by simpa only [halloc] using h.heap.alloc (defaultFileSize * 2 ^ j)
    simp only [State.alloc, halloc, if_true] at hgrow
    obtain ⟨rfl, -⟩ := Prod.mk.inj (Option.some.inj hgrow)
    have hext : Extends st { st with heap := hp } [] :=
      { Extends.refl h.heap with ok := hok, live := hlive }
    exact ⟨h.extend hext, rfl, rfl, rfl, MountsKept.extend h hext, fun _ hp' => hext.mem_live hp'⟩
  · have hok : hp.Ok := by simpa only [halloc] using h.heap.alloc (defaultFileSize * 2 ^ j)
    rw [capacity_mod hn0] at hapart hlive hn0
    simp only [State.alloc, halloc, if_neg hp0.ne', if_neg hdata, State.free] at hgrow
    obtain ⟨rfl, -⟩ := Prod.mk.inj (Option.some.inj hgrow)
    have hnew : ∀ b ∈ st.heap.live, b.1 ≠ p := fun b hb =>
      h.heap.start_ne hn0 hb (hapart b hb)
    have hkeep : ∀ x i, (x, i) ∈ st.heap.live → x ≠ (st.nodes (st.vnodes v).internal).data →
        (x, i) ∈ (hp.free (st.nodes (st.vnodes v).internal).data).live := by
      intro x i hx hne
      refine Heap.mem_free.2 ⟨?_, hne⟩
      rw [hlive]
      exact List.mem_cons_of_mem _ hx
    have hsmall : ∀ x i, (x, i) ∈ st.heap.live → i < defaultFileSize →
        (x, i) ∈ (hp.free (st.nodes (st.vnodes v).internal).data).live := by
      intro x i hx hi
      refine hkeep x i hx fun heq => ?_
      have := congrArg Prod.snd (h.heap.eq_of_start hx hold heq)
      simp only at this
      omega
    refine ⟨?_, rfl, rfl, rfl, MountsKept.same h rfl rfl (sameShape_update ⟨rfl, rfl, rfl⟩) rfl rfl rfl,
      fun q hq => hsmall q _ hq (by decide)⟩
    refine h.moveData (hok.free _) hsmall (fun _ => ⟨rfl, rfl, rfl⟩) ?_ ?_
    · intro w hw hfw hne
      exact hkeep _ _ (h.data w hw hfw).1 fun heq => hne (by rw [h.data_inj w hw v hv hfw hf heq])
    · intro w hw hfw _
      refine ⟨Heap.mem_free.2 ⟨?_, (hnew _ hold).symm⟩, ⟨j, rfl⟩, ?_⟩
      · rw [hlive]
        exact List.mem_cons_self ..
      · intro u hu hfu heq
        exact absurd heq (hnew _ (h.data u hu hfu).1)

theorem Tree.tmpfsStore (h : Tree st T) (file n : ℕ) (bytes : List UInt8) :
    Tree (tmpfsStore st file n bytes) T := by
  have hset : ∀ f : Node → Node, (∀ e, (f e).type = e.type ∧ (f e).children = e.children ∧
      (f e).numChildren = e.numChildren) → (∀ e, (f e).data = e.data ∧ (f e).capacity = e.capacity) →
      ∀ mem files, Tree (State.setNode { st with mem := mem, files := files } n f) T := by
    intro f hf hdata mem files
    refine h.moveData h.heap (fun _ _ hx _ => hx) hf (fun w hw hfw _ => (h.data w hw hfw).1)
      fun w hw hfw _ => ?_
    rw [(hdata _).1, (hdata _).2]
    exact ⟨(h.data w hw hfw).1, (h.data w hw hfw).2, fun u hu hfu heq => h.data_inj u hu w hw hfu hfw heq⟩
  simp only [Vfs.tmpfsStore]
  split_ifs
  · exact hset (fun e => { e with size := ((st.files file).fPos + bytes.length) % 2 ^ 64 })
      (fun _ => ⟨rfl, rfl, rfl⟩) (fun _ => ⟨rfl, rfl⟩) _ _
  · exact ⟨h.heap, h.rootfs, h.root, h.rootMount, h.vnode, h.node, h.node_inj, h.vOps, h.fOps,
      h.parent, h.child, h.mount, h.data, h.data_inj, h.fs⟩

theorem tmpfsStore_frame (st : State) (file n : ℕ) (bytes : List UInt8) :
    (tmpfsStore st file n bytes).heap = st.heap ∧ (tmpfsStore st file n bytes).vnodes = st.vnodes ∧
      (tmpfsStore st file n bytes).root = st.root ∧
      ∀ p, ((tmpfsStore st file n bytes).files p).vnode = (st.files p).vnode ∧
        ((tmpfsStore st file n bytes).files p).fOps = (st.files p).fOps := by
  have hfile : ∀ p k, (Function.update st.files file
      (let e := st.files file; { e with fPos := k }) p).vnode = (st.files p).vnode ∧
      (Function.update st.files file (let e := st.files file; { e with fPos := k }) p).fOps =
        (st.files p).fOps := by
    intro p k
    by_cases hp : p = file
    · rw [hp, Function.update_self]
      exact ⟨rfl, rfl⟩
    · rw [Function.update_of_ne hp]
      exact ⟨rfl, rfl⟩
  simp only [tmpfsStore]
  split_ifs <;> exact ⟨rfl, rfl, rfl, fun p => hfile p _⟩

theorem Tree.tmpfsStore_mounts (h : Tree st T) (file n : ℕ) (bytes : List UInt8) :
    MountsKept st (Vfs.tmpfsStore st file n bytes) T T := by
  simp only [Vfs.tmpfsStore]
  split_ifs
  · exact MountsKept.same h rfl rfl (sameShape_update ⟨rfl, rfl, rfl⟩) rfl rfl rfl
  · exact MountsKept.same h rfl rfl (fun _ => SameShape.refl _) rfl rfl rfl

/-- A handle as `vfs_open` makes it: a file with the operations of the memory file system is on a vnode
of it. -/
structure HandleOk (st : State) (T : Set ℕ) (p : ℕ) : Prop where
  live : (p, sizeofFile) ∈ st.heap.live
  vnode : (st.files p).vnode = 0 ∨ (st.files p).vnode ∈ T
  tmpfs : (st.files p).fOps = some .tmpfs → (st.files p).vnode ∈ T →
    (st.vnodes (st.files p).vnode).vOps = some .tmpfs

theorem NewHandle.handleOk {st₀ : State} {flags : BitVec 32} (hnew : NewHandle st₀ st file v flags)
    (h : Tree st T) (hv : v ∈ T) : HandleOk st T file := by
  refine ⟨hnew.live, ?_, ?_⟩
  · rw [hnew.file]
    exact Or.inr hv
  · rw [hnew.file]
    exact fun hops _ => (h.fOps v hv).2 hops

theorem Grows.refl (h : Tree st T) : Grows st st T T :=
  ⟨h, Set.Subset.rfl, rfl, fun _ _ => rfl, fun _ hp => ⟨hp, rfl, rfl⟩, MountsKept.refl st T⟩

/-- Moving the position of a handle. -/
theorem Grows.setPos (h : Tree st T) (file : ℕ) (g : File → ℕ) :
    Grows st (st.setFile file fun e => { e with fPos := g e }) T T := by
  refine ⟨h.setFile file _, Set.Subset.rfl, rfl, fun _ _ => rfl, fun p hp => ⟨hp, ?_⟩,
    MountsKept.same h rfl rfl (fun _ => SameShape.refl _) rfl rfl rfl⟩
  simp only [State.setFile]
  by_cases heq : p = file
  · rw [heq, Function.update_self]
    exact ⟨rfl, rfl⟩
  · rw [Function.update_of_ne heq]
    exact ⟨rfl, rfl⟩

theorem Grows.tmpfsStore (h : Tree st T) (file n : ℕ) (bytes : List UInt8) :
    Grows st (tmpfsStore st file n bytes) T T := by
  obtain ⟨hheap, hvnodes, hroot, hfiles⟩ := tmpfsStore_frame st file n bytes
  refine ⟨h.tmpfsStore file n bytes, Set.Subset.rfl, hroot, fun v _ => by rw [hvnodes], fun p hp =>
    ⟨by rwa [hheap], hfiles p⟩, h.tmpfsStore_mounts file n bytes⟩

theorem tmpfsWrite_tree (h : Tree st T) (hfile : HandleOk st T file)
    (hops : (st.files file).fOps = some .tmpfs) {buf : Option (List UInt8)}
    (hw : tmpfsWrite st file buf = some (st', r)) : Grows st st' T T := by
  cases buf with
  | none =>
      obtain ⟨rfl, -⟩ := Prod.mk.inj (Option.some.inj hw)
      exact Grows.refl h
  | some bytes =>
      simp only [tmpfsWrite, Option.bind_eq_bind] at hw
      split_ifs at hw with hbad hlen htype hcap
      · obtain ⟨rfl, -⟩ := Prod.mk.inj (Option.some.inj hw)
        exact Grows.refl h
      · obtain ⟨rfl, -⟩ := Prod.mk.inj (Option.some.inj hw)
        exact Grows.refl h
      · obtain ⟨rfl, -⟩ := Prod.mk.inj (Option.some.inj hw)
        exact Grows.refl h
      · obtain ⟨⟨st₁, ok⟩, hgrow, hw⟩ := Option.bind_eq_some_iff.1 hw
        have hv : (st.files file).vnode ∈ T :=
          hfile.vnode.resolve_left fun h0 => hbad (Or.inr (Or.inl h0))
        have hdata : IsDataFile st (st.files file).vnode := ⟨hfile.tmpfs hops hv, not_not.1 htype⟩
        obtain ⟨htree, hvnodes, hfiles, hroot, hmounts, hlive⟩ :=
          h.tmpfsGrow hv hdata (Nat.zero_lt_of_lt hcap) hgrow
        have hg : Grows st st₁ T T := ⟨htree, Set.Subset.rfl, hroot, fun v _ => by rw [hvnodes],
          fun p hp => ⟨hlive p hp, by rw [hfiles], by rw [hfiles]⟩, hmounts⟩
        cases ok with
        | false =>
            obtain ⟨rfl, -⟩ := Prod.mk.inj (Option.some.inj hw)
            exact hg
        | true =>
            obtain ⟨rfl, -⟩ := Prod.mk.inj (Option.some.inj hw)
            exact hg.trans (Grows.tmpfsStore htree file _ bytes)
      · obtain ⟨rfl, -⟩ := Prod.mk.inj (Option.some.inj hw)
        exact Grows.tmpfsStore h file _ bytes

theorem devWrite_grows (h : Tree st T) (file : ℕ) (buf : Option (List UInt8)) :
    Grows st (devWrite st file buf).1 T T := by
  cases buf with
  | none => exact Grows.refl h
  | some bytes =>
      rw [devWrite]
      split_ifs
      · exact Grows.refl h
      · exact Grows.setPos h file fun e => (e.fPos + bytes.length) % 2 ^ 64

theorem write_grows (h : Tree st T) (hfile : HandleOk st T file) {ops : FileOps}
    (hops : (st.files file).fOps = some ops) {buf : Option (List UInt8)}
    (hw : ops.write st file buf = some (st', r)) : Grows st st' T T := by
  cases ops with
  | tmpfs => exact tmpfsWrite_tree h hfile hops hw
  | initramfs =>
      obtain ⟨rfl, -⟩ := Prod.mk.inj (Option.some.inj hw)
      exact Grows.refl h
  | uart =>
      have heq : devWrite st file buf = (st', r) := Option.some.inj hw
      simpa only [heq] using devWrite_grows h file buf
  | framebuffer =>
      have heq : devWrite st file buf = (st', r) := Option.some.inj hw
      simpa only [heq] using devWrite_grows h file buf

theorem tmpfsRead_grows (h : Tree st T) (file : ℕ) (buf : Bool) (len : ℕ) :
    Grows st (tmpfsRead st file buf len).1 T T := by
  have hset : ∀ k, Grows st (st.setFile file fun e => { e with fPos := k }) T T := fun k =>
    Grows.setPos h file fun _ => k
  simp only [tmpfsRead]
  split_ifs
  · exact Grows.refl h
  · exact Grows.refl h
  · exact Grows.refl h
  · exact Grows.refl h
  · exact hset _
  · exact hset _

theorem read_grows (h : Tree st T) (ops : FileOps) (file : ℕ) (buf : Bool) (len : ℕ)
    (port : List UInt8) : Grows st (ops.read st file buf len port).1 T T := by
  cases ops with
  | tmpfs => exact tmpfsRead_grows h file buf len
  | initramfs => exact tmpfsRead_grows h file buf len
  | uart =>
      change Grows st (devUartRead st file buf len port).1 T T
      rw [devUartRead]
      split_ifs
      · exact Grows.refl h
      · exact Grows.setPos h file fun e =>
          (e.fPos + ((port.take len).takeWhile (· ≠ 0)).length) % 2 ^ 64
  | framebuffer => exact Grows.refl h

theorem tmpfsLseek64_grows (h : Tree st T) (file : ℕ) (offset whence : ℤ) :
    Grows st (tmpfsLseek64 st file offset whence).1 T T := by
  rw [tmpfsLseek64]
  by_cases hbad : st.badFile file
  · rw [if_pos hbad]
    exact Grows.refl h
  rw [if_neg hbad]
  dsimp only
  by_cases htype : (st.internal (st.files file).vnode).type ≠ .file
  · rw [if_pos htype]
    exact Grows.refl h
  rw [if_neg htype]
  generalize (if whence = seekSet then some (0 : ℤ) else _) = base
  cases base with
  | none => exact Grows.refl h
  | some base =>
      dsimp only
      split_ifs
      · exact Grows.refl h
      · exact Grows.setPos h file fun _ => (Int.bmod (base + offset) (2 ^ 64)).toNat

theorem devLseek64_grows (h : Tree st T) (file : ℕ) (offset whence : ℤ) :
    Grows st (devLseek64 st file offset whence).1 T T := by
  rw [devLseek64]
  by_cases hnull : file = 0
  · rw [if_pos hnull]
    exact Grows.refl h
  rw [if_neg hnull]
  dsimp only
  generalize (if whence = seekSet then some offset else _) = newPos
  cases newPos with
  | none => exact Grows.refl h
  | some newPos =>
      dsimp only
      split_ifs
      · exact Grows.refl h
      · exact Grows.setPos h file fun _ => newPos.toNat

theorem lseek64_grows (h : Tree st T) (ops : FileOps) (file : ℕ) (offset whence : ℤ) :
    Grows st (ops.lseek64 st file offset whence).1 T T := by
  cases ops with
  | tmpfs => exact tmpfsLseek64_grows h file offset whence
  | initramfs => exact tmpfsLseek64_grows h file offset whence
  | uart => exact devLseek64_grows h file offset whence
  | framebuffer => exact devLseek64_grows h file offset whence

end OscKernel.Vfs
