import OscKernel.FileCalls

/-!
# Reading and writing through descriptors

`Sys.Shows` says what the tables of all tasks and the blocks of all files show as a store. A write, a read
and a seek do to it what the store allows.
-/

namespace OscKernel.Vfs

open OpenFiles (Adds OneMore)
open Relation

variable {s s' : Sys} {st st' : State} {T T' : Set ℕ} {m m' : FileStore} {c c' : Contents}
  {t v file pos count : ℕ} {fd x offset whence : ℤ} {i : Fin threadMaxFd} {f : OpenFile} {h : Option (ℕ × ℕ)}
  {bytes out : List UInt8} {path : UserPath} {flags : BitVec 32}

/-- A call that leaves the handles alone. -/
theorem Sys.Shows.filesStep (hs : s.Shows T m) (hf : FilesStep s.st st' T T' m.content c') :
    Sys.Shows ⟨st', s.tasks⟩ T' { m with content := c' } where
  inv := hs.inv.grows hf.grows
  stored := hf.stored
  noData t i hne := hf.noData _ (hs.inv.handle t i hne).live (hs.noData t i hne)
  handle t i := (hs.handle t i).step hs.stored (hs.inv.handle t i) hf

theorem Sys.tasks_setTask_of_ne (s : Sys) {t u : ℕ} (st : State) (task : Task) (hu : u ≠ t) :
    (s.setTask t st task).tasks u = s.tasks u := Function.update_of_ne hu ..

theorem Sys.tasks_setFd (s : Sys) (t : ℕ) (i : Fin threadMaxFd) (file u : ℕ) (j : Fin threadMaxFd) :
    ((s.setTask t st ((s.tasks t).setFd i file)).tasks u).fdTable j =
      if (u, j) = (t, i) then file else (s.tasks u).fdTable j := by
  by_cases hu : u = t
  · by_cases hj : j = i
    · simp [Sys.setTask, Task.setFd, hu, hj]
    · simp [Sys.setTask, Task.setFd, hu, hj]
  · simp [Sys.setTask, hu]

/-- A slot gets a handle or is emptied. -/
theorem Sys.Shows.setFd (hs : s.Shows T m) (hinv : (s.setTask t s.st ((s.tasks t).setFd i file)).Inv T)
    (hno : file ≠ 0 → NoData s.st m.content file) (hx : HandleShows s.st m.content file h) :
    (s.setTask t s.st ((s.tasks t).setFd i file)).Shows T (m.setHandle (t, i) h) where
  inv := hinv
  stored := hs.stored
  noData u j := by
    rw [s.tasks_setFd]
    split_ifs
    · exact hno
    · exact hs.noData u j
  handle u j := by
    change HandleShows s.st m.content _ (Function.update m.handle (t, i) h (u, j))
    rw [s.tasks_setFd]
    by_cases heq : (u, j) = (t, i)
    · rw [if_pos heq, heq, Function.update_self]
      exact hx
    · rw [if_neg heq, Function.update_of_ne heq]
      exact hs.handle u j

theorem HandleShows.congr (hh : HandleShows st c file h) (hfile : st'.files file = st.files file) :
    HandleShows st' c file h := by
  cases h with
  | none =>
      rw [HandleShows, hfile]
      exact hh
  | some x =>
      obtain ⟨v, pos⟩ := x
      rw [HandleShows, hfile]
      exact hh

/-- The handle of one slot changes, and no other. -/
theorem Sys.Shows.others (hs : s.Shows T m)
    (hfiles : ∀ p ≠ (s.tasks t).fdTable i, st'.files p = s.st.files p) {u : ℕ} {j : Fin threadMaxFd}
    (hne : (u, j) ≠ (t, i)) : HandleShows st' m.content ((s.tasks u).fdTable j) (m.handle (u, j)) := by
  by_cases h0 : (s.tasks u).fdTable j = 0
  · have hshow := hs.handle u j
    cases hm : m.handle (u, j) with
    | none => exact Or.inl h0
    | some y =>
        rw [hm] at hshow
        exact absurd h0 hshow.1
  · refine (hs.handle u j).congr (hfiles _ fun hfile => hne ?_)
    obtain ⟨rfl, rfl⟩ := hs.inv.distinct u j t i h0 hfile
    rfl

/-- The position of one handle changes. -/
theorem Sys.Shows.setPos (hs : s.Shows T m) (hne : (s.tasks t).fdTable i ≠ 0) {k : ℕ}
    (hx : HandleShows (s.st.setFile ((s.tasks t).fdTable i) fun e => { e with fPos := k }) m.content
      ((s.tasks t).fdTable i) h) :
    Sys.Shows ⟨s.st.setFile ((s.tasks t).fdTable i) fun e => { e with fPos := k }, s.tasks⟩ T
      (m.setHandle (t, i) h) where
  inv := hs.inv.grows (Grows.setPos hs.inv.tree _ fun _ => k)
  stored := hs.stored.files _
  noData := hs.noData
  handle u j := by
    change HandleShows _ m.content _ (Function.update m.handle (t, i) h (u, j))
    by_cases heq : (u, j) = (t, i)
    · obtain ⟨rfl, rfl⟩ := Prod.mk.inj heq
      rw [Function.update_self]
      exact hx
    · rw [Function.update_of_ne heq]
      exact hs.others (fun p hp => Function.update_of_ne hp ..) heq

/-- A handle that is not on a file may get any position. -/
theorem Sys.Shows.setPos_none (hs : s.Shows T m) (hne : (s.tasks t).fdTable i ≠ 0)
    (hnone : m.handle (t, i) = none) (k : ℕ) :
    Sys.Shows ⟨s.st.setFile ((s.tasks t).fdTable i) fun e => { e with fPos := k }, s.tasks⟩ T m := by
  have hshow := hs.handle t i
  rw [hnone] at hshow
  have hset := hs.setPos (h := none) hne (k := k) (by
    change _ ∨ _ ∨ _
    simp only [State.setFile, Function.update_self]
    exact hshow)
  rwa [OpenFiles.setHandle, ← hnone, Function.update_eq_self] at hset

/-- The slot `i` of the task `t` has the handle of `f`. -/
structure Sys.Has (s : Sys) (m : FileStore) (t : ℕ) (i : Fin threadMaxFd) (f : OpenFile) : Prop where
  descriptor : f.descriptor = (t, i)
  ne_zero : (s.tasks t).fdTable i ≠ 0
  vnode : (s.st.files ((s.tasks t).fdTable i)).vnode = f.vnode
  pos : (s.st.files ((s.tasks t).fdTable i)).fPos = f.pos
  pos_lt : f.pos < 2 ^ 63
  ops : (s.st.files ((s.tasks t).fdTable i)).fOps = some f.kind.fileOps
  content : m.content f.vnode = some (f.kind, f.bytes)

theorem Sys.Shows.has (hs : s.Shows T m) (hf : FileStore.lookup m t fd = some f) (hi : slot fd = some i) :
    s.Has m t i f := by
  obtain ⟨j, hj, hd, hh, hcontent⟩ := FileStore.lookup_eq_some hf
  obtain rfl := Option.some.inj (hi.symm.trans hj)
  have hshow := hs.handle t i
  rw [hh] at hshow
  obtain ⟨h0, hvnode, hpos, hlt, y, hy, hops⟩ := hshow
  rw [hcontent] at hy
  obtain rfl := Option.some.inj hy
  exact ⟨hd, h0, hvnode, hpos, hlt, hops, hcontent⟩

/-- A handle on a file gets a position. -/
theorem Sys.Shows.moveTo (hs : s.Shows T m) (hf : s.Has m t i f) {k : ℕ} (hk : k < 2 ^ 63) :
    Sys.Shows ⟨s.st.setFile ((s.tasks t).fdTable i) fun e => { e with fPos := k }, s.tasks⟩ T
      (m.moveTo f k) := by
  rw [FileStore.moveTo, hf.descriptor]
  refine hs.setPos hf.ne_zero ?_
  refine ⟨hf.ne_zero, ?_, ?_, hk, _, hf.content, ?_⟩ <;> simp only [State.setFile, Function.update_self]
  · exact hf.vnode
  · exact hf.ops

/-- A handle on a file of the memory file system is a descriptor of the store. -/
theorem Sys.Shows.lookup_some (hs : s.Shows T m) (hi : slot fd = some i) (h0 : (s.tasks t).fdTable i ≠ 0)
    (hops : (s.st.files ((s.tasks t).fdTable i)).fOps = some .tmpfs)
    (hv : (s.st.files ((s.tasks t).fdTable i)).vnode ≠ 0)
    (htype : (s.st.internal (s.st.files ((s.tasks t).fdTable i)).vnode).type = .file) :
    ∃ f, FileStore.lookup m t fd = some f := by
  have hok := hs.inv.handle t i h0
  have hin := hok.vnode.resolve_left hv
  cases hf : FileStore.lookup m t fd with
  | some f => exact ⟨f, rfl⟩
  | none =>
      refine absurd ?_ (hs.stored.all _ hin ⟨htype, fun harch => ?_⟩)
      · have hnone := hs.handle t i
        rw [hs.lookup_eq_none hf hi] at hnone
        rcases hnone with h0' | ⟨hne, -⟩ | hno
        · exact absurd h0' h0
        · exact absurd hops hne
        · exact hno
      · rw [hok.tmpfs hops hin] at harch
        cases harch

theorem State.setFile_pos_self (st : State) (file : ℕ) :
    st.setFile file (fun e => { e with fPos := (st.files file).fPos }) = st := st.setFile_self rfl

/-- What is not a file of the memory file system is not written. -/
theorem write_noFile (hc : Stored st T c) (hok : HandleOk st T file) (h0 : file ≠ 0)
    (hnone : HandleShows st c file none) {ops : FileOps} (hops : (st.files file).fOps = some ops)
    {buf : Option (List UInt8)} (hw : ops.write st file buf = some (st', x)) :
    ∃ k, st' = st.setFile file fun e => { e with fPos := k } := by
  have hdev : ∀ buf, ∃ k, (devWrite st file buf).1 = st.setFile file fun e => { e with fPos := k } := by
    intro buf
    cases buf with
    | none => exact ⟨_, (st.setFile_pos_self file).symm⟩
    | some bytes =>
        rw [devWrite]
        split_ifs
        · exact ⟨_, (st.setFile_pos_self file).symm⟩
        · exact ⟨((st.files file).fPos + bytes.length) % 2 ^ 64, rfl⟩
  cases ops with
  | tmpfs =>
      have hno : c (st.files file).vnode = none := by
        rcases hnone with h0' | ⟨hne, -⟩ | hno
        · exact absurd h0' h0
        · exact absurd hops hne
        · exact hno
      refine ⟨_, Eq.trans ?_ (st.setFile_pos_self file).symm⟩
      cases buf with
      | none =>
          obtain ⟨rfl, -⟩ := Prod.mk.inj (Option.some.inj hw)
          rfl
      | some bytes =>
          simp only [FileOps.write, tmpfsWrite] at hw
          by_cases hbad : st.badFile file
          · rw [if_pos hbad] at hw
            obtain ⟨rfl, -⟩ := Prod.mk.inj (Option.some.inj hw)
            rfl
          have hv : (st.files file).vnode ∈ T :=
            hok.vnode.resolve_left fun hv0 => hbad (Or.inr (Or.inl hv0))
          have htype : (st.nodes (st.vnodes (st.files file).vnode).internal).type ≠ .file := by
            intro htype
            refine hc.all _ hv ⟨htype, fun hi => ?_⟩ hno
            rw [hok.tmpfs hops hv] at hi
            cases hi
          rw [if_neg hbad] at hw
          split_ifs at hw with hlen
          · obtain ⟨rfl, -⟩ := Prod.mk.inj (Option.some.inj hw)
            rfl
          · obtain ⟨rfl, -⟩ := Prod.mk.inj (Option.some.inj hw)
            rfl
  | initramfs =>
      obtain ⟨rfl, -⟩ := Prod.mk.inj (Option.some.inj hw)
      exact ⟨_, (st.setFile_pos_self file).symm⟩
  | uart =>
      obtain ⟨k, hk⟩ := hdev buf
      exact ⟨k, by rw [← hk, Option.some.inj (show some (devWrite st file buf) = _ from hw)]⟩
  | framebuffer =>
      obtain ⟨k, hk⟩ := hdev buf
      exact ⟨k, by rw [← hk, Option.some.inj (show some (devWrite st file buf) = _ from hw)]⟩

/-- The bytes of a file change. -/
theorem HandleShows.setContent (hh : HandleShows st c file h) {y z : VnodeOps × List UInt8}
    (hy : c v = some y) (hkind : y.1 = z.1) : HandleShows st (Function.update c v (some z)) file h := by
  cases h with
  | none =>
      refine hh.imp_right (Or.imp_right fun hno => ?_)
      rw [Function.update_of_ne]
      · exact hno
      · intro heq
        rw [heq, hy] at hno
        cases hno
  | some p =>
      obtain ⟨w, pos⟩ := p
      obtain ⟨h0, hvnode, hpos, hlt, a, ha, hops⟩ := hh
      by_cases hw : w = v
      · rw [hw, hy] at ha
        refine ⟨h0, hvnode, hpos, hlt, z, by rw [hw, Function.update_self], ?_⟩
        rw [hops, ← Option.some.inj ha, hkind]
      · exact ⟨h0, hvnode, hpos, hlt, a, by rwa [Function.update_of_ne hw], hops⟩

/-- Bytes have gone into the file of a handle. -/
theorem Sys.Shows.setBytes (hs : s.Shows T m) (hf : s.Has m t i f) {k : ℕ} (hk : k < 2 ^ 63)
    (hinv : Sys.Inv ⟨st', s.tasks⟩ T) {z : VnodeOps × List UInt8} (hz : f.kind = z.1)
    (hstored : Stored st' T (Function.update m.content f.vnode (some z)))
    (hfiles : st'.files = Function.update s.st.files ((s.tasks t).fdTable i)
      { s.st.files ((s.tasks t).fdTable i) with fPos := k })
    (hno : ∀ q, (q, sizeofFile) ∈ s.st.heap.live → NoData s.st m.content q →
      NoData st' (Function.update m.content f.vnode (some z)) q) :
    Sys.Shows ⟨st', s.tasks⟩ T (FileStore.moveTo (m.setContent f.vnode z) f k) := by
  refine ⟨hinv, hstored, fun u j hne => hno _ (hs.inv.handle u j hne).live (hs.noData u j hne), ?_⟩
  intro u j
  rw [FileStore.moveTo, hf.descriptor]
  change HandleShows st' (Function.update m.content f.vnode (some z)) _
    (Function.update m.handle (t, i) (some (f.vnode, k)) (u, j))
  by_cases heq : (u, j) = (t, i)
  · obtain ⟨rfl, rfl⟩ := Prod.mk.inj heq
    rw [Function.update_self]
    refine ⟨hf.ne_zero, ?_, ?_, hk, z, Function.update_self .., ?_⟩
    all_goals rw [hfiles, Function.update_self]
    · exact hf.vnode
    · rw [hf.ops, hz]
  · rw [Function.update_of_ne heq]
    refine (hs.others (fun p hp => ?_) heq).setContent hf.content hz
    rw [hfiles, Function.update_of_ne hp]

/-- A write through a handle of a file. -/
theorem Sys.Shows.writeFile (hs : s.Shows T m) (hf : s.Has m t i f) (hne : bytes ≠ [])
    (hlen : bytes.length < 2 ^ 32) (hinv : Sys.Inv ⟨st', s.tasks⟩ T)
    (heq : f.kind.fileOps.write s.st ((s.tasks t).fdTable i) (some bytes) = some (st', x)) :
    ∃ m', Sys.Shows ⟨st', s.tasks⟩ T m' ∧ FileStore.WriteMay m f bytes x m' := by
  have hcontent := hf.content
  unfold FileStore.WriteMay
  cases hkind : f.kind with
  | initramfs =>
      rw [hkind] at heq
      obtain ⟨rfl, rfl⟩ := Prod.mk.inj (Option.some.inj heq)
      exact ⟨m, hs, rfl, rfl⟩
  | tmpfs =>
      rw [hkind] at heq
      rw [← hf.vnode] at hcontent
      have hlt := hf.pos_lt
      rw [← hf.pos] at hlt
      rcases hs.stored.write hs.inv.tree hf.ne_zero hcontent hkind hlt hne hlen heq with
        ⟨rfl, hgrows, hstored, hfiles, hno⟩ | ⟨rfl, hend, bs', hwritten, hstored, hfiles, hno⟩
      · rw [hf.pos] at hgrows
        exact ⟨m, ⟨hinv, hstored, fun u j hne => hno _ (hs.noData u j hne),
          fun u j => (hs.handle u j).congr (congrFun hfiles _)⟩, Or.inl ⟨rfl, hgrows, rfl⟩⟩
      · rw [hf.vnode, hkind] at hstored hno
        rw [hf.pos] at hwritten hend hfiles
        exact ⟨_, hs.setBytes hf hend hinv hkind hstored hfiles hno, Or.inr ⟨rfl, bs', hwritten, rfl⟩⟩

theorem Sys.Shows.write (hs : s.Shows T m) {buf : Option (List UInt8)}
    (hfits : ∀ bytes ∈ buf, bytes.length < 2 ^ 32)
    (heq : sysWrite s.st (s.tasks t) fd buf = some (st', x)) :
    ∃ m', Sys.Shows ⟨st', s.tasks⟩ T m' ∧ FileStore.Allows m (.write t fd buf) x [] m' := by
  have hinv := hs.inv.write heq
  rw [sysWrite] at heq
  cases hi : slot fd with
  | none =>
      rw [hi] at heq
      obtain ⟨rfl, -⟩ := Prod.mk.inj (Option.some.inj heq)
      refine ⟨m, hs, rfl, ?_⟩
      rw [FileStore.lookup, hi]
      rfl
  | some i =>
  rw [hi] at heq
  dsimp only at heq
  by_cases hbuf : buf = none ∨ buf = some []
  · rw [if_pos hbuf] at heq
    obtain ⟨rfl, rfl⟩ := Prod.mk.inj (Option.some.inj heq)
    have hnil : buf.getD [] = [] := by rcases hbuf with rfl | rfl <;> rfl
    refine ⟨m, hs, rfl, ?_⟩
    cases FileStore.lookup m t fd with
    | none => rfl
    | some f =>
        change if _ then _ else _
        rw [if_pos hnil]
        exact ⟨rfl, rfl⟩
  rw [if_neg hbuf] at heq
  by_cases h0 : (s.tasks t).fdTable i = 0
  · rw [if_pos h0] at heq
    cases heq
  rw [if_neg h0] at heq
  cases hf : FileStore.lookup m t fd with
  | none =>
      have hnone := hs.lookup_eq_none hf hi
      have hshow := hs.handle t i
      rw [hnone] at hshow
      obtain ⟨k, rfl⟩ : ∃ k, st' = s.st.setFile ((s.tasks t).fdTable i) fun e => { e with fPos := k } := by
        by_cases hvnode : (s.st.files ((s.tasks t).fdTable i)).vnode = 0
        · rw [if_pos hvnode] at heq
          obtain ⟨rfl, -⟩ := Prod.mk.inj (Option.some.inj heq)
          exact ⟨_, (State.setFile_pos_self _ _).symm⟩
        rw [if_neg hvnode] at heq
        cases hops : (s.st.files ((s.tasks t).fdTable i)).fOps with
        | none =>
            rw [hops] at heq
            obtain ⟨rfl, -⟩ := Prod.mk.inj (Option.some.inj heq)
            exact ⟨_, (State.setFile_pos_self _ _).symm⟩
        | some ops =>
            rw [hops] at heq
            exact write_noFile hs.stored (hs.inv.handle t i h0) h0 hshow hops heq
      refine ⟨m, hs.setPos_none h0 hnone k, rfl, ?_⟩
      rw [hf]
  | some f =>
      have hhas := hs.has hf hi
      obtain ⟨bytes, rfl⟩ := Option.ne_none_iff_exists'.1 fun hb => hbuf (Or.inl hb)
      have hne : bytes ≠ [] := fun hb => hbuf (Or.inr (congrArg some hb))
      have hvnode : f.vnode ≠ 0 := hs.inv.tree.ne_zero (hs.stored.stored _ _ hhas.content).1
      rw [if_neg (by rw [hhas.vnode]; exact hvnode), hhas.ops] at heq
      obtain ⟨m', hs', hmay⟩ := hs.writeFile hhas hne (hfits bytes rfl) hinv.inv heq
      refine ⟨m', hs', rfl, ?_⟩
      simp only [hf, Option.getD_some, if_neg hne]
      exact hmay

theorem tmpfsRead_pos (st : State) (file : ℕ) (buf : Bool) (len : ℕ) :
    ∃ k, (tmpfsRead st file buf len).1 = st.setFile file fun e => { e with fPos := k } := by
  simp only [tmpfsRead]
  split_ifs
  · exact ⟨_, (st.setFile_pos_self file).symm⟩
  · exact ⟨_, (st.setFile_pos_self file).symm⟩
  · exact ⟨_, (st.setFile_pos_self file).symm⟩
  · exact ⟨_, (st.setFile_pos_self file).symm⟩
  · exact ⟨_, rfl⟩
  · exact ⟨_, rfl⟩

theorem read_pos (st : State) (ops : FileOps) (file : ℕ) (buf : Bool) (len : ℕ) (port : List UInt8) :
    ∃ k, (ops.read st file buf len port).1 = st.setFile file fun e => { e with fPos := k } := by
  cases ops with
  | tmpfs => exact tmpfsRead_pos st file buf len
  | initramfs => exact tmpfsRead_pos st file buf len
  | uart =>
      change ∃ k, (devUartRead st file buf len port).1 = _
      rw [devUartRead]
      split_ifs
      · exact ⟨_, (st.setFile_pos_self file).symm⟩
      · exact ⟨((st.files file).fPos + ((port.take len).takeWhile (· ≠ 0)).length) % 2 ^ 64, rfl⟩
  | framebuffer => exact ⟨_, (st.setFile_pos_self file).symm⟩

/-- A read of a file delivers its bytes from the position on. -/
theorem StoredFile.read {y : VnodeOps × List UInt8} (hf : StoredFile st (st.files file).vnode y)
    (hgood : ¬ st.badFile file) (hpos : (st.files file).fPos < 2 ^ 63)
    (hcount : (st.files file).fPos + count < 2 ^ 64)
    (hbytes : bytes = (y.2.drop (st.files file).fPos).take count) :
    tmpfsRead st file true count =
      (st.setFile file fun e => { e with fPos := (st.files file).fPos + bytes.length },
        (bytes.length : ℤ), bytes) ∧ (st.files file).fPos + bytes.length < 2 ^ 63 := by
  have hsize := hf.size_lt
  rw [← hf.content, ByteMem.slice_read] at hbytes
  have hlen : bytes.length = min count
      ((st.internal (st.files file).vnode).size - (st.files file).fPos) := by
    rw [hbytes, ByteMem.read_length]
  have hread := tmpfsRead_spec hgood hf.isFile.1 hlen fun hk => by omega
  rw [hlen, ← hbytes, ← hlen] at hread
  exact ⟨hread, by omega⟩

theorem Sys.Shows.good (hs : s.Shows T m) (hf : s.Has m t i f) :
    ¬ s.st.badFile ((s.tasks t).fdTable i) ∧ StoredFile s.st f.vnode (f.kind, f.bytes) := by
  obtain ⟨hv, hfile⟩ := hs.stored.stored _ _ hf.content
  rw [← hf.vnode] at hv
  exact ⟨(badFile_iff hs.inv.tree hv).not.2 hf.ne_zero, hfile⟩

theorem Sys.Shows.read (hs : s.Shows T m) {buf : Bool} {port : List UInt8}
    (hcount : ∀ i ∈ slot fd, (s.st.files ((s.tasks t).fdTable i)).fPos + count < 2 ^ 64)
    (heq : sysRead s.st (s.tasks t) fd buf count port = some (st', x, out)) :
    ∃ m', Sys.Shows ⟨st', s.tasks⟩ T m' ∧ FileStore.Allows m (.read t fd buf count port) x out m' := by
  rw [sysRead] at heq
  cases hi : slot fd with
  | none =>
      rw [hi] at heq
      obtain ⟨rfl, -⟩ := Prod.mk.inj (Option.some.inj heq)
      refine ⟨m, hs, ?_⟩
      rw [FileStore.Allows, FileStore.lookup, hi]
      rfl
  | some i =>
  rw [hi] at heq
  dsimp only at heq
  by_cases h0 : (s.tasks t).fdTable i = 0
  · rw [if_pos h0] at heq
    cases heq
  rw [if_neg h0] at heq
  cases hf : FileStore.lookup m t fd with
  | none =>
      have hnone := hs.lookup_eq_none hf hi
      obtain ⟨k, rfl⟩ : ∃ k, st' = s.st.setFile ((s.tasks t).fdTable i) fun e => { e with fPos := k } := by
        by_cases hvnode : (s.st.files ((s.tasks t).fdTable i)).vnode = 0
        · rw [if_pos hvnode] at heq
          obtain ⟨rfl, -⟩ := Prod.mk.inj (Option.some.inj heq)
          exact ⟨_, (State.setFile_pos_self _ _).symm⟩
        rw [if_neg hvnode] at heq
        cases hops : (s.st.files ((s.tasks t).fdTable i)).fOps with
        | none =>
            rw [hops] at heq
            obtain ⟨rfl, -⟩ := Prod.mk.inj (Option.some.inj heq)
            exact ⟨_, (State.setFile_pos_self _ _).symm⟩
        | some ops =>
            rw [hops] at heq
            obtain ⟨k, hk⟩ := read_pos s.st ops ((s.tasks t).fdTable i) buf count port
            exact ⟨k, by rw [← hk, Option.some.inj heq]⟩
      refine ⟨m, hs.setPos_none h0 hnone k, ?_⟩
      rw [FileStore.Allows, hf]
  | some f =>
      have hhas := hs.has hf hi
      obtain ⟨hgood, hfile⟩ := hs.good hhas
      have hvnode : f.vnode ≠ 0 := hs.inv.tree.ne_zero (hs.stored.stored _ _ hhas.content).1
      rw [if_neg (by rw [hhas.vnode]; exact hvnode), hhas.ops] at heq
      have hread : f.kind.fileOps.read s.st ((s.tasks t).fdTable i) buf count port =
          tmpfsRead s.st ((s.tasks t).fdTable i) buf count := by
        cases f.kind <;> rfl
      dsimp only at heq
      rw [hread] at heq
      cases buf with
      | false =>
          have hnull : tmpfsRead s.st ((s.tasks t).fdTable i) false count = (s.st, einval, []) :=
            if_pos (Or.inr rfl)
          rw [hnull] at heq
          obtain ⟨rfl, rfl, rfl⟩ : s.st = st' ∧ einval = x ∧ [] = out := by simpa using heq
          refine ⟨m, hs, ?_⟩
          rw [FileStore.Allows, hf]
          exact ⟨rfl, rfl, rfl⟩
      | true =>
          rw [← hhas.vnode] at hfile
          have hlt := hhas.pos_lt
          rw [← hhas.pos] at hlt
          obtain ⟨hspec, hend⟩ := hfile.read hgood hlt (hcount i hi) rfl
          rw [hspec] at heq
          obtain ⟨rfl, rfl, rfl⟩ := by simpa only [Option.some.injEq, Prod.mk.injEq] using heq
          rw [hhas.pos] at hend ⊢
          refine ⟨_, hs.moveTo hhas hend, ?_⟩
          rw [FileStore.Allows, hf]
          exact ⟨rfl, rfl, rfl⟩

theorem lseek64_pos (st : State) (ops : FileOps) (file : ℕ) (offset whence : ℤ) :
    ∃ k, (ops.lseek64 st file offset whence).1 = st.setFile file fun e => { e with fPos := k } := by
  have htmpfs : ∃ k,
      (tmpfsLseek64 st file offset whence).1 = st.setFile file fun e => { e with fPos := k } := by
    rw [tmpfsLseek64]
    by_cases hbad : st.badFile file
    · rw [if_pos hbad]
      exact ⟨_, (st.setFile_pos_self file).symm⟩
    rw [if_neg hbad]
    dsimp only
    by_cases htype : (st.internal (st.files file).vnode).type ≠ .file
    · rw [if_pos htype]
      exact ⟨_, (st.setFile_pos_self file).symm⟩
    rw [if_neg htype]
    generalize (if whence = seekSet then some (0 : ℤ) else _) = base
    cases base with
    | none => exact ⟨_, (st.setFile_pos_self file).symm⟩
    | some base =>
        dsimp only
        split_ifs
        · exact ⟨_, (st.setFile_pos_self file).symm⟩
        · exact ⟨(Int.bmod (base + offset) (2 ^ 64)).toNat, rfl⟩
  have hdev : ∃ k, (devLseek64 st file offset whence).1 = st.setFile file fun e => { e with fPos := k } := by
    rw [devLseek64]
    by_cases hnull : file = 0
    · rw [if_pos hnull]
      exact ⟨_, (st.setFile_pos_self file).symm⟩
    rw [if_neg hnull]
    dsimp only
    generalize (if whence = seekSet then some offset else _) = newPos
    cases newPos with
    | none => exact ⟨_, (st.setFile_pos_self file).symm⟩
    | some newPos =>
        dsimp only
        split_ifs
        · exact ⟨_, (st.setFile_pos_self file).symm⟩
        · exact ⟨newPos.toNat, rfl⟩
  cases ops with
  | tmpfs => exact htmpfs
  | initramfs => exact htmpfs
  | uart => exact hdev
  | framebuffer => exact hdev

/-- A seek goes to its target, or nowhere. -/
theorem StoredFile.lseek (hfile : StoredFile st f.vnode (f.kind, f.bytes)) (hgood : ¬ st.badFile file)
    (hvnode : (st.files file).vnode = f.vnode) (hpos : (st.files file).fPos = f.pos) (hlt : f.pos < 2 ^ 63)
    (hlo : -2 ^ 63 ≤ offset) (hhi : offset < 2 ^ 63) :
    (tmpfsLseek64 st file offset whence).1 =
      match FileStore.seekTarget f offset whence with
      | none => st
      | some k => st.setFile file fun e => { e with fPos := k } := by
  have hsize := hfile.size_lt
  have hlen : (st.internal f.vnode).size = f.bytes.length := hfile.length_eq
  rw [← hvnode] at hfile hsize hlen
  rw [tmpfsLseek64, if_neg hgood]
  simp only [if_neg (not_not.2 hfile.isFile.1), FileStore.seekTarget, hpos, hlen]
  generalize hbase : (if whence = seekSet then some (0 : ℤ) else _) = base
  cases base with
  | none => rfl
  | some base =>
      have hbounds : 0 ≤ base ∧ base < 2 ^ 63 := by
        split_ifs at hbase <;> obtain rfl := Option.some.inj hbase <;> omega
      obtain ⟨hneg, hval⟩ := bmod_seek hbounds.1 hbounds.2 hlo hhi
      simp only [Option.bind_some]
      by_cases hout : 0 ≤ base + offset ∧ base + offset < 2 ^ 63
      · have hgo : ¬ Int.bmod (base + offset) (2 ^ 64) < 0 := fun h => by
          have := hneg.1 h
          omega
        rw [if_pos hout, if_neg hgo, hval hgo]
      · rw [if_neg hout, if_pos (hneg.2 (by omega))]

theorem FileStore.seekTarget_lt {k : ℕ} (h : FileStore.seekTarget f offset whence = some k) : k < 2 ^ 63 := by
  rw [FileStore.seekTarget] at h
  obtain ⟨base, -, h⟩ := Option.bind_eq_some_iff.1 h
  split_ifs at h with hin
  obtain rfl := Option.some.inj h
  omega

theorem Sys.Shows.lseek (hs : s.Shows T m) (hlo : -2 ^ 63 ≤ offset) (hhi : offset < 2 ^ 63) :
    ∃ m', Sys.Shows ⟨(sysLseek64 s.st (s.tasks t) fd offset whence).1, s.tasks⟩ T m' ∧
      FileStore.Allows m (.lseek t fd offset whence) (sysLseek64 s.st (s.tasks t) fd offset whence).2 []
        m' := by
  rw [sysLseek64]
  cases hi : slot fd with
  | none =>
      refine ⟨m, hs, rfl, ?_⟩
      rw [FileStore.lookup, hi]
      rfl
  | some i =>
  dsimp only
  rw [vfsLseek64]
  cases hf : FileStore.lookup m t fd with
  | none =>
      have hnone := hs.lookup_eq_none hf hi
      refine ⟨m, ?_, rfl, by rw [hf]⟩
      split_ifs with h0
      · exact hs
      cases (s.st.files ((s.tasks t).fdTable i)).fOps with
      | none => exact hs
      | some ops =>
          obtain ⟨k, hk⟩ := lseek64_pos s.st ops ((s.tasks t).fdTable i) offset whence
          dsimp only
          rw [hk]
          exact hs.setPos_none h0 hnone k
  | some f =>
      have hhas := hs.has hf hi
      obtain ⟨hgood, hfile⟩ := hs.good hhas
      have hseek : f.kind.fileOps.lseek64 = tmpfsLseek64 := by cases f.kind <;> rfl
      rw [if_neg hhas.ne_zero, hhas.ops]
      dsimp only
      rw [hseek, hfile.lseek hgood hhas.vnode hhas.pos hhas.pos_lt hlo hhi]
      cases htarget : FileStore.seekTarget f offset whence with
      | none => exact ⟨m, hs, rfl, by rw [hf]; exact ⟨rfl, by rw [htarget]; rfl⟩⟩
      | some k =>
          refine ⟨_, hs.moveTo hhas (FileStore.seekTarget_lt htarget), rfl, ?_⟩
          rw [hf]
          exact ⟨rfl, by rw [htarget]; rfl⟩

end OscKernel.Vfs
