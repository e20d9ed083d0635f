import OscKernel.CreateLookup
import OscKernel.TmpfsRefines

/-!
# The files of an initramfs

After `initramfs_init` the root has one file for each entry of the archive, in the order of the entries. A
lookup finds the file of the first entry with the name, and reading and seeking on a handle of that file
are reading and seeking in the data of the entry.
-/

namespace OscKernel.Vfs

open Mm (maxAllocSize)
open ByteMem (Has)

variable {st st₁ st' : State} {T T' : Set ℕ} {root v w k file pos : ℕ} {e : Entry} {es done : List Entry}
  {vs : List ℕ} {bs : List (ℕ × ℕ)} {name : List UInt8} {type : NodeType} {m : ByteArrays}

/-- `st'` is `st` but for the children of `k` and outside the blocks in use. -/
structure Keeps (st st' : State) (T : Set ℕ) (k : ℕ) : Prop where
  vnode : ∀ w ∈ T, st'.vnodes w = st.vnodes w
  internal : ∀ w ∈ T, w ≠ k → st'.internal w = st.internal w
  live : ∀ b ∈ st.heap.live, b ∈ st'.heap.live
  mem : ∀ b ∈ st.heap.live, ∀ x, b.1 ≤ x → x < b.1 + b.2 → st'.mem x = st.mem x

theorem Keeps.refl (st : State) (T : Set ℕ) (k : ℕ) : Keeps st st T k :=
  ⟨fun _ _ => rfl, fun _ _ _ => rfl, fun _ hb => hb, fun _ _ _ _ _ => rfl⟩

theorem Keeps.trans (h₁ : Keeps st st₁ T k) (h₂ : Keeps st₁ st' T' k) (hsub : T ⊆ T') :
    Keeps st st' T k where
  vnode w hw := (h₂.vnode w (hsub hw)).trans (h₁.vnode w hw)
  internal w hw hne := (h₂.internal w (hsub hw) hne).trans (h₁.internal w hw hne)
  live b hb := h₂.live b (h₁.live b hb)
  mem b hb x hlo hhi := (h₂.mem b (h₁.live b hb) x hlo hhi).trans (h₁.mem b hb x hlo hhi)

def KeepsBlocks (st st' : State) : Prop :=
  (∀ b ∈ st.heap.live, b ∈ st'.heap.live) ∧
    ∀ b ∈ st.heap.live, ∀ x, b.1 ≤ x → x < b.1 + b.2 → st'.mem x = st.mem x

theorem KeepsBlocks.refl (st : State) : KeepsBlocks st st := ⟨fun _ hb => hb, fun _ _ _ _ _ => rfl⟩

theorem KeepsBlocks.trans (h₁ : KeepsBlocks st st₁) (h₂ : KeepsBlocks st₁ st') : KeepsBlocks st st' :=
  ⟨fun b hb => h₂.1 b (h₁.1 b hb), fun b hb x hlo hhi =>
    (h₂.2 b (h₁.1 b hb) x hlo hhi).trans (h₁.2 b hb x hlo hhi)⟩

theorem KeepsBlocks.of_mem (hlive : ∀ b ∈ st.heap.live, b ∈ st'.heap.live) (hmem : st'.mem = st.mem) :
    KeepsBlocks st st' :=
  ⟨hlive, fun _ _ _ _ _ => by rw [hmem]⟩

theorem Keeps.blocks (h : Keeps st st' T k) : KeepsBlocks st st' := ⟨h.live, h.mem⟩

theorem Extends.keeps (he : Extends st st' bs) (h : Tree st T) (k : ℕ) : Keeps st st' T k where
  vnode w hw := he.vnode _ (h.vnode w hw)
  internal w hw _ := h.ownNodes.internal he hw
  live _ hb := he.mem_live hb
  mem _ _ _ _ _ := by rw [he.mem]

theorem Created.keeps (hc : Created st st' k v name type) (h : Tree st T) (hk : k ∈ T) :
    Keeps st st' T k := by
  have hf := hc.frame h hk
  obtain ⟨-, st₁, n, data, -, rfl, hext, -⟩ := hc
  refine ⟨hf.vnode, hf.other, fun b hb => hext.mem_live hb, fun _ _ _ _ _ => ?_⟩
  exact congrFun hext.mem _

theorem Added.keeps (ha : Added st st' root v e) (h : Tree st T) (hroot : root ∈ T) :
    Keeps st st' T root := by
  obtain ⟨-, -, st₁, n, data, -, hdata, hext, -, -, rfl⟩ := ha
  have hold : ∀ w ∈ T, st₁.vnodes w = st.vnodes w := fun w hw => hext.vnode _ (h.vnode w hw)
  refine ⟨hold, fun w hw hne => ?_, fun b hb => hext.mem_live hb, fun b hb x hlo hhi => ?_⟩
  · rw [State.internal_setNode_of_ne]
    · rw [State.internal, hold w hw]
      exact hext.node _ (h.node w hw)
    · rw [hold w hw]
      exact fun heq => hne (h.node_inj w hw root hroot heq)
  · change st₁.mem x = _
    rw [hext.mem]
    by_cases h0 : data = 0
    · rw [hdata h0]
      rfl
    have hblock : (data, e.data.length) ∈ (v, sizeofVnode) :: entryBlocks e n data := by
      rw [entryBlocks, if_neg h0]
      simp
    have hlive : (data, e.data.length) ∈ st₁.heap.live := by
      rw [hext.live]
      exact List.mem_append_left _ hblock
    have hapart := hext.ok.apart_of_start hlive (hext.mem_live hb)
      fun heq => hext.fresh hblock b hb heq.symm
    simp only [Apart] at hapart
    exact ByteMem.write_outside _ _ _ (by omega)

structure FileOf (st : State) (root v : ℕ) (e : Entry) : Prop where
  mount : (st.vnodes v).mount = 0
  fOps : (st.vnodes v).fOps = some .initramfs
  parent : (st.vnodes v).parent = root
  name : (st.internal v).name = e.name
  type : (st.internal v).type = .file
  size : (st.internal v).size = e.data.length
  live : e.data ≠ [] → ((st.internal v).data, e.data.length) ∈ st.heap.live
  content : Has st.mem (st.internal v).data e.data
  small : e.data.length ≤ maxAllocSize

theorem FileOf.keeps (hf : FileOf st root v e) (hk : Keeps st st' T k) (hv : v ∈ T) (hne : v ≠ k) :
    FileOf st' root v e := by
  have hvnode := hk.vnode v hv
  have hint := hk.internal v hv hne
  refine ⟨?_, ?_, ?_, ?_, ?_, ?_, fun hne => ?_, ?_, hf.small⟩
  · rw [hvnode]
    exact hf.mount
  · rw [hvnode]
    exact hf.fOps
  · rw [hvnode]
    exact hf.parent
  · rw [hint]
    exact hf.name
  · rw [hint]
    exact hf.type
  · rw [hint]
    exact hf.size
  · rw [hint]
    exact hk.live _ (hf.live hne)
  · rw [hint]
    by_cases hempty : e.data = []
    · rw [hempty]
      rfl
    · rw [Has, ByteMem.read_congr _ _ fun x hlo hhi => hk.mem _ (hf.live hempty) x hlo hhi]
      exact hf.content

theorem Added.fileOf (ha : Added st st' root v e) (h : Tree st T) (hroot : root ∈ T) :
    FileOf st' root v e := by
  obtain ⟨-, hsmall, st₁, n, data, -, hdata, hext, hvnode, hnode, rfl⟩ := ha
  have hnblock : (n, sizeofNode) ∈ (v, sizeofVnode) :: entryBlocks e n data := by
    rw [entryBlocks]
    split_ifs <;> simp
  have hint : (st₁.setNode (st.vnodes root).internal (·.append v)).internal v = entryNode e data := by
    rw [State.internal_setNode_of_ne, State.internal, hvnode]
    · exact hnode
    · rw [hvnode]
      exact (hext.fresh hnblock _ (h.node root hroot)).symm
  refine ⟨?_, ?_, ?_, ?_, ?_, ?_, fun hne => ?_, ?_, hsmall⟩
  · exact congrArg Vnode.mount hvnode
  · exact congrArg Vnode.fOps hvnode
  · exact congrArg Vnode.parent hvnode
  · rw [hint]
    rfl
  · rw [hint]
    rfl
  · rw [hint]
    rfl
  · rw [hint]
    change (data, e.data.length) ∈ st₁.heap.live
    rw [hext.live, entryBlocks, if_neg fun h0 => hne (hdata h0)]
    simp
  · rw [hint]
    change Has st₁.mem data e.data
    rw [hext.mem]
    exact ByteMem.read_write_same ..

theorem Added.dir (ha : Added st st' root v e) (h : Tree st T) (hroot : root ∈ T) :
    v ∉ T ∧ st'.internal root = (st.internal root).append v := by
  obtain ⟨-, -, st₁, n, data, -, -, hext, -, -, rfl⟩ := ha
  have hself : st₁.vnodes root = st.vnodes root := hext.vnode _ (h.vnode root hroot)
  refine ⟨fun hv => hext.fresh (List.mem_cons_self ..) _ (h.vnode v hv) rfl, ?_⟩
  rw [← hself, State.internal_setNode_self, State.internal, hself]
  exact congrArg (Node.append · v) (hext.node _ (h.node root hroot))

structure Filled (st : State) (T : Set ℕ) (root : ℕ) (es : List Entry) (vs : List ℕ) : Prop where
  dir : root ∈ T
  type : (st.internal root).type = .directory
  mem : ∀ v ∈ vs, v ∈ T ∧ v ≠ root
  children : childList st root = vs
  files : List.Forall₂ (FileOf st root) vs es

theorem Filled.keeps (hf : Filled st T root es vs) (hk : Keeps st st' T k) (hsub : T ⊆ T')
    (hroot : root ≠ k) (hvs : ∀ v ∈ vs, v ≠ k) : Filled st' T' root es vs where
  dir := hsub hf.dir
  type := by
    rw [hk.internal root hf.dir hroot]
    exact hf.type
  mem v hv := ⟨hsub (hf.mem v hv).1, (hf.mem v hv).2⟩
  children := by
    rw [childList, hk.internal root hf.dir hroot]
    exact hf.children
  files := by
    refine List.forall₂_iff_get.2 ⟨hf.files.length_eq, fun i h₁ h₂ => ?_⟩
    have hv : vs.get ⟨i, h₁⟩ ∈ vs := List.get_mem ..
    exact ((List.forall₂_iff_get.1 hf.files).2 i h₁ h₂).keeps hk (hf.mem _ hv).1 (hvs _ hv)

/-- The file of an entry comes to the end of the children. -/
theorem Filled.add (hf : Filled st T root es vs) (h : Tree st T) (ha : Added st st' root v e) :
    Filled st' (Insert.insert v T) root (es ++ [e]) (vs ++ [v]) := by
  have hk := ha.keeps h hf.dir
  have hfile := ha.fileOf h hf.dir
  obtain ⟨hv, hroot⟩ := ha.dir h hf.dir
  refine ⟨Or.inr hf.dir, ?_, ?_, ?_, ?_⟩
  · rw [hroot]
    exact hf.type
  · intro w hw
    rcases List.mem_append.1 hw with hw | hw
    · exact ⟨Or.inr (hf.mem w hw).1, (hf.mem w hw).2⟩
    · rw [List.mem_singleton.1 hw]
      refine ⟨Or.inl rfl, ?_⟩
      rintro rfl
      exact hv hf.dir
  · rw [childList, hroot, Node.children_append, ← childList, hf.children]
  · refine List.rel_append ?_ (List.Forall₂.cons hfile List.Forall₂.nil)
    refine List.forall₂_iff_get.2 ⟨hf.files.length_eq, fun i h₁ h₂ => ?_⟩
    have hv : vs.get ⟨i, h₁⟩ ∈ vs := List.get_mem ..
    exact ((List.forall₂_iff_get.1 hf.files).2 i h₁ h₂).keeps hk (hf.mem _ hv).1 (hf.mem _ hv).2

/-- The rounds of the loop: nothing but the files comes to the tree. -/
theorem Filled.addEntries (hf : Filled st T root done vs) (h : Tree st T)
    (hlen : ∀ e ∈ es, e.data.length < 2 ^ 32)
    (heq : es.foldlM (fun st e => initramfsAddEntry st root e) st = some st') :
    ∃ T' new, Grows st st' T T' ∧ Filled st' T' root (done ++ es) (vs ++ new) ∧ Keeps st st' T root ∧
      ∀ w ∈ T', w ∈ T ∨ w ∈ new := by
  induction es generalizing st T done vs with
  | nil =>
      obtain rfl := Option.some.inj heq
      refine ⟨T, [], ⟨h, Set.Subset.rfl, rfl, fun _ _ => rfl, fun _ hp => ⟨hp, rfl, rfl⟩,
        MountsKept.refl st T⟩, ?_, Keeps.refl st T root, fun w hw => Or.inl hw⟩
      rwa [List.append_nil, List.append_nil]
  | cons e es ih =>
      rw [List.foldlM_cons] at heq
      obtain ⟨st₁, hadd, heq⟩ := Option.bind_eq_some_iff.1 heq
      obtain ⟨v, ha⟩ := initramfsAddEntry_added h hf.dir (hlen e List.mem_cons_self) hadd
      have hg := ha.grows h hf.dir
      obtain ⟨T', new, hg', hf', hk', hnew⟩ := ih (hf.add h ha) hg.tree
        (fun x hx => hlen x (List.mem_cons_of_mem _ hx)) heq
      refine ⟨T', v :: new, hg.trans hg', ?_, (ha.keeps h hf.dir).trans hk' hg.subset, fun w hw => ?_⟩
      · rwa [List.append_assoc, List.append_assoc] at hf'
      · rcases hnew w hw with (rfl | hold) | hmem
        · exact Or.inr List.mem_cons_self
        · exact Or.inl hold
        · exact Or.inr (List.mem_cons_of_mem _ hmem)

/-- A lookup finds the file of the first entry with the name. -/
theorem Filled.findChild (hf : Filled st T root es vs) (name : List UInt8) :
    (es.find? (fun e => e.name = name) = none ∧ findChild st (st.internal root) name = none) ∨
      ∃ e v, es.find? (fun e => e.name = name) = some e ∧
        findChild st (st.internal root) name = some v ∧ v ∈ vs ∧ FileOf st root v e := by
  rw [findChild_childList, hf.children]
  have hfiles := hf.files
  clear hf
  induction hfiles with
  | nil => exact Or.inl ⟨rfl, rfl⟩
  | @cons v e vs es hv hfiles ih =>
      rw [List.find?_cons, List.find?_cons, hv.name]
      by_cases hname : e.name = name
      · simp only [hname, decide_true]
        exact Or.inr ⟨e, v, rfl, rfl, List.mem_cons_self, hv⟩
      · simp only [hname, decide_false]
        refine ih.imp_right ?_
        rintro ⟨e', v', he, hv', hmem, hfile⟩
        exact ⟨e', v', he, hv', List.mem_cons_of_mem _ hmem, hfile⟩

/-- The calls on an open file; `buf` says whether a buffer comes with a read. -/
inductive Access where
  | read (buf : Bool) (len : ℕ)
  | lseek (offset whence : ℤ)

def Access.Fits : Access → Prop
  | .read _ len => len < 2 ^ 32
  | .lseek offset _ => -2 ^ 63 ≤ offset ∧ offset < 2 ^ 63

def initramfsAccess (st : State) (file : ℕ) : Access → State × ℤ × List UInt8
  | .read buf len => initramfsRead st file buf len
  | .lseek offset whence =>
      let (st, r) := initramfsLseek64 st file offset whence
      (st, r, [])

/-- The results of a sequence of calls on a handle: return values and bytes delivered. -/
def initramfsAccesses (st : State) (file : ℕ) : List Access → List (ℤ × List UInt8)
  | [] => []
  | a :: as =>
      let (st, r) := initramfsAccess st file a
      r :: initramfsAccesses st file as

def Access.op (h : ℕ) : Access → FileOp
  | .read buf len => .read h buf len
  | .lseek offset whence => .lseek h offset whence

def ByteArrays.opened (data : List UInt8) : ByteArrays := ⟨fun _ => data, fun _ => some (0, 0)⟩

def slices (m : ByteArrays) (h : ℕ) : List Access → List (ℤ × List UInt8)
  | [] => []
  | a :: as =>
      let (m, r) := m.step true (a.op h)
      r :: slices m h as

structure Reads (st : State) (m : ByteArrays) (file v root : ℕ) (e : Entry) (pos : ℕ) : Prop where
  good : ¬ st.badFile file
  vnode : (st.files file).vnode = v
  position : (st.files file).fPos = pos ∧ pos < 2 ^ 63
  fileOf : FileOf st root v e
  content : ∀ u, m.content u = e.data
  handle : ∃ u, m.handles file = some (u, pos)

theorem Reads.setPos {p : ℕ} (h : Reads st m file v root e pos) (u : ℕ) (hp : p < 2 ^ 63) :
    Reads (st.setFile file fun x => { x with fPos := p }) (m.setHandle file (some (u, p))) file v root e
      p := by
  have hself : (st.setFile file fun x => { x with fPos := p }).files file =
      { st.files file with fPos := p } := Function.update_self ..
  refine ⟨?_, ?_, ?_, ?_, h.content, u, Function.update_self ..⟩
  · rw [State.badFile, hself]
    exact h.good
  · rw [hself]
    exact h.vnode
  · rw [hself]
    exact ⟨rfl, hp⟩
  · exact ⟨h.fileOf.mount, h.fileOf.fOps, h.fileOf.parent, h.fileOf.name, h.fileOf.type, h.fileOf.size,
      h.fileOf.live, h.fileOf.content, h.fileOf.small⟩

theorem Reads.read (h : Reads st m file v root e pos) (buf : Bool) {len : ℕ} (hlen : len < 2 ^ 32) :
    ∃ st' m' r pos', initramfsRead st file buf len = (st', r) ∧
      m.step true (.read file buf len) = (m', r) ∧ Reads st' m' file v root e pos' := by
  obtain ⟨u, hm⟩ := h.handle
  obtain ⟨hpos, hlt⟩ := h.position
  cases buf with
  | false =>
      refine ⟨st, m, (einval, []), pos, if_pos (Or.inr rfl), ?_, h⟩
      simp only [ByteArrays.step, hm]
  | true =>
      have hvnode := h.vnode
      have hsize := h.fileOf.size
      have hsmall := h.fileOf.small
      have hmax : maxAllocSize < 2 ^ 31 := by decide
      obtain ⟨n, hn⟩ : ∃ n, n = min len ((st.internal (st.files file).vnode).size - (st.files file).fPos) :=
        ⟨_, rfl⟩
      rw [← hvnode] at hsize
      have hread := tmpfsRead_spec h.good (by rw [hvnode]; exact h.fileOf.type) hn fun _ => by omega
      rw [hsize, hpos] at hn
      have hbytes : ByteMem.read st.mem ((st.internal v).data + pos) n = (e.data.drop pos).take len := by
        have hcontent : ByteMem.read st.mem (st.internal v).data e.data.length = e.data :=
          h.fileOf.content
        rw [hn, ← ByteMem.slice_read, hcontent]
      have hcount : ((e.data.drop pos).take len).length = n := by
        rw [List.length_take, List.length_drop, hn]
      rw [hvnode, hpos, hbytes] at hread
      refine ⟨_, m.setHandle file (some (u, pos + n)), (n, (e.data.drop pos).take len), pos + n, hread, ?_,
        ?_⟩
      · simp only [ByteArrays.step, hm, h.content, hcount]
      · have hset : (st.setFile file fun x => { x with fPos := x.fPos + n }) =
            st.setFile file fun x => { x with fPos := pos + n } := by
          simp only [State.setFile, hpos]
        rw [hset]
        exact h.setPos u (by omega)

theorem Reads.lseek (h : Reads st m file v root e pos) {offset : ℤ} (whence : ℤ) (hlo : -2 ^ 63 ≤ offset)
    (hhi : offset < 2 ^ 63) :
    ∃ st' m' r pos', initramfsLseek64 st file offset whence = (st', r) ∧
      m.step true (.lseek file offset whence) = (m', r, []) ∧ Reads st' m' file v root e pos' := by
  obtain ⟨u, hm⟩ := h.handle
  obtain ⟨hpos, hlt⟩ := h.position
  have hvnode := h.vnode
  have hsmall := h.fileOf.small
  have hmax : maxAllocSize < 2 ^ 31 := by decide
  have hseek := tmpfsLseek64_eq (m := m) h.good (by rw [hvnode]; exact h.fileOf.type)
    (by rw [hvnode, h.content]; exact h.fileOf.size) offset whence
  have hsame : m.seekBase (st.files file).vnode (st.files file).fPos whence = m.seekBase u pos whence := by
    rw [hpos, ByteArrays.seekBase, ByteArrays.seekBase, h.content, h.content]
  rw [hsame] at hseek
  cases hbase : m.seekBase u pos whence with
  | none =>
      rw [hbase] at hseek
      refine ⟨st, m, einval, pos, hseek, ?_, h⟩
      simp only [ByteArrays.step, hm, hbase]
  | some base =>
      rw [hbase] at hseek
      have hlen : (m.content u).length < 2 ^ 63 := by
        rw [h.content]
        omega
      obtain ⟨hbase0, hbase63⟩ := m.seekBase_bounds hlt hlen hbase
      obtain ⟨hneg, hval⟩ := bmod_seek hbase0 hbase63 hlo hhi
      by_cases hout : base + offset < 0 ∨ 2 ^ 63 ≤ base + offset
      · simp only [if_pos (hneg.2 hout)] at hseek
        refine ⟨st, m, einval, pos, hseek, ?_, h⟩
        simp only [ByteArrays.step, hm, hbase, if_pos hout]
      · simp only [hval (mt hneg.1 hout), if_neg fun h' => hout (Or.inl h')] at hseek
        refine ⟨_, m.setHandle file (some (u, (base + offset).toNat)), base + offset,
          (base + offset).toNat, hseek, ?_, h.setPos u (by omega)⟩
        simp only [ByteArrays.step, hm, hbase, if_neg hout]

/-- Every sequence of calls delivers the slices of the data of the entry. -/
theorem Reads.accesses (h : Reads st m file v root e pos) {as : List Access} (has : ∀ a ∈ as, a.Fits) :
    initramfsAccesses st file as = slices m file as := by
  induction as generalizing st m pos with
  | nil => rfl
  | cons a as ih =>
      have hrest : ∀ x ∈ as, x.Fits := fun x hx => has x (List.mem_cons_of_mem _ hx)
      cases a with
      | read buf len =>
          obtain ⟨st', m', r, pos', hread, hstep, h'⟩ := h.read buf (has _ List.mem_cons_self)
          simp only [initramfsAccesses, initramfsAccess, hread, slices, Access.op, hstep, ih h' hrest]
      | lseek offset whence =>
          obtain ⟨hlo, hhi⟩ := has _ List.mem_cons_self
          obtain ⟨st', m', r, pos', hseek, hstep, h'⟩ := h.lseek whence hlo hhi
          simp only [initramfsAccesses, initramfsAccess, hseek, slices, Access.op, hstep, ih h' hrest]

end OscKernel.Vfs
