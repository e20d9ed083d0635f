import OscKernel.ClientHeap
import OscKernel.Runs
import OscKernel.Tmpfs

/-!
# Files of the memory file system as byte arrays

The reference model has a list of bytes for each file and a position for each handle. Opening,
closing, writing, reading and seeking in any order on any handles give the results of the model; a
write may run out of memory only where the model's file has to grow.
-/

namespace OscKernel.Vfs

open Mm (maxAllocSize)

inductive FileOp where
  | open (h v : ℕ)
  | close (h : ℕ)
  | write (h : ℕ) (buf : Option (List UInt8))
  | read (h : ℕ) (buf : Bool) (len : ℕ)
  | lseek (h : ℕ) (offset whence : ℤ)

structure ByteArrays where
  content : ℕ → List UInt8
  handles : ℕ → Option (ℕ × ℕ)

namespace ByteArrays

def fresh : ByteArrays := ⟨fun _ => [], fun _ => none⟩

def setHandle (m : ByteArrays) (h : ℕ) (x : Option (ℕ × ℕ)) : ByteArrays :=
  { m with handles := Function.update m.handles h x }

def setContent (m : ByteArrays) (v : ℕ) (bs : List UInt8) : ByteArrays :=
  { m with content := Function.update m.content v bs }

def seekBase (m : ByteArrays) (v pos : ℕ) (whence : ℤ) : Option ℤ :=
  if whence = seekSet then some 0
  else if whence = seekCur then some pos
  else if whence = seekEnd then some (m.content v).length
  else none

/-- The result is the return value and the bytes that a read delivers. `room` says whether there is
memory for a file to grow. -/
def step (room : Bool) (m : ByteArrays) : FileOp → ByteArrays × ℤ × List UInt8
  | .open h v =>
      if h = 0 ∨ v = 0 then (m, einval, []) else (m.setHandle h (some (v, 0)), 0, [])
  | .close h => if h = 0 then (m, einval, []) else (m.setHandle h none, 0, [])
  | .write h buf =>
      match m.handles h, buf with
      | some (v, pos), some bytes =>
          if room = false ∧ (m.content v).length < pos + bytes.length then (m, enomem, [])
          else ((m.setContent v (ByteMem.splice (m.content v) pos bytes)).setHandle h
            (some (v, pos + bytes.length)), bytes.length, [])
      | _, _ => (m, einval, [])
  | .read h buf len =>
      match m.handles h, buf with
      | some (v, pos), true =>
          let bytes := ((m.content v).drop pos).take len
          (m.setHandle h (some (v, pos + bytes.length)), bytes.length, bytes)
      | _, _ => (m, einval, [])
  | .lseek h offset whence =>
      match m.handles h with
      | some (v, pos) =>
          match m.seekBase v pos whence with
          | some base =>
              if base + offset < 0 ∨ 2 ^ 63 ≤ base + offset then (m, einval, [])
              else (m.setHandle h (some (v, (base + offset).toNat)), base + offset, [])
          | none => (m, einval, [])
      | none => (m, einval, [])

def Step (m : ByteArrays) (i : FileOp × ℤ × List UInt8) (m' : ByteArrays) : Prop :=
  ∃ room, m.step room i.1 = (m', i.2)

end ByteArrays

structure FileSys where
  st : State
  opened : List ℕ

namespace FileSys

def step (s : FileSys) : FileOp → Option (FileSys × ℤ × List UInt8)
  | .open h v =>
      let (st, r) := tmpfsOpen s.st v h
      some (⟨st, if r = 0 then h :: s.opened else s.opened⟩, r, [])
  | .close h =>
      let (st, r) := tmpfsClose s.st h
      some (⟨st, s.opened⟩, r, [])
  | .write h buf =>
      match tmpfsWrite s.st h buf with
      | some (st, r) => some (⟨st, s.opened⟩, r, [])
      | none => none
  | .read h buf len =>
      let (st, r, bytes) := tmpfsRead s.st h buf len
      some (⟨st, s.opened⟩, r, bytes)
  | .lseek h offset whence =>
      let (st, r) := tmpfsLseek64 s.st h offset whence
      some (⟨st, s.opened⟩, r, [])

/-- Handles are null or opened before, files are those of `V`, lengths fit 32 bits and no write makes
a hole. -/
def Valid (V : Set ℕ) (s : FileSys) : FileOp → Prop
  | .open _ v => v = 0 ∨ v ∈ V
  | .close h => h = 0 ∨ h ∈ s.opened
  | .write h buf => (h = 0 ∨ h ∈ s.opened) ∧ ∀ bytes ∈ buf, bytes.length < 2 ^ 32 ∧
      (¬ s.st.badFile h → (s.st.files h).fPos ≤ (s.st.internal (s.st.files h).vnode).size)
  | .read h _ len => (h = 0 ∨ h ∈ s.opened) ∧ len < 2 ^ 32
  | .lseek h offset _ => (h = 0 ∨ h ∈ s.opened) ∧ -2 ^ 63 ≤ offset ∧ offset < 2 ^ 63

def Step (V : Set ℕ) (s : FileSys) (i : FileOp × ℤ × List UInt8) (s' : FileSys) : Prop :=
  s.Valid V i.1 ∧ s.step i.1 = some (s', i.2)

end FileSys

/-- The file behind `v` has the content `bs`, in a buffer that came from `alloc` with its capacity as
the size. -/
structure FileHolds (st : State) (v : ℕ) (bs : List UInt8) : Prop where
  vnode : v ≠ 0
  node : (st.vnodes v).internal ≠ 0
  file : (st.internal v).type = .file
  live : ((st.internal v).data, (st.internal v).capacity) ∈ st.heap.live
  capacity : ∃ k, (st.internal v).capacity = defaultFileSize * 2 ^ k
  capacity_le : (st.internal v).capacity ≤ maxAllocSize
  size_le : (st.internal v).size ≤ (st.internal v).capacity
  content : ByteMem.read st.mem (st.internal v).data (st.internal v).size = bs

def HandleHolds (V : Set ℕ) (st : State) (h : ℕ) : Option (ℕ × ℕ) → Prop
  | none => (st.files h).vnode = 0
  | some (v, pos) => v ∈ V ∧ (st.files h).vnode = v ∧ (st.files h).fPos = pos ∧ pos < 2 ^ 63

structure Represents (V : Set ℕ) (opened : List ℕ) (st : State) (m : ByteArrays) : Prop where
  heap : st.heap.Ok
  file : ∀ v ∈ V, FileHolds st v (m.content v)
  node_inj : ∀ v ∈ V, ∀ w ∈ V, (st.vnodes v).internal = (st.vnodes w).internal → v = w
  data_inj : ∀ v ∈ V, ∀ w ∈ V, (st.internal v).data = (st.internal w).data → v = w
  null : m.handles 0 = none
  handle : ∀ h ∈ opened, h ≠ 0 ∧ HandleHolds V st h (m.handles h)

/-- Files as `tmpfs_create` leaves them: empty, with a buffer of their own. -/
structure FreshFiles (st : State) (V : Set ℕ) : Prop where
  heap : st.heap.Ok
  vnode : ∀ v ∈ V, v ≠ 0 ∧ (v, sizeofVnode) ∈ st.heap.live
  node : ∀ v ∈ V, ((st.vnodes v).internal, sizeofNode) ∈ st.heap.live
  file : ∀ v ∈ V, (st.internal v).type = .file ∧ (st.internal v).size = 0 ∧
    (st.internal v).capacity = defaultFileSize
  data : ∀ v ∈ V, ((st.internal v).data, defaultFileSize) ∈ st.heap.live
  node_inj : ∀ v ∈ V, ∀ w ∈ V, (st.vnodes v).internal = (st.vnodes w).internal → v = w
  data_inj : ∀ v ∈ V, ∀ w ∈ V, (st.internal v).data = (st.internal w).data → v = w

variable {V : Set ℕ} {opened : List ℕ} {st st' : State} {m : ByteArrays} {v h pos : ℕ}
  {bs bytes : List UInt8}

theorem FreshFiles.represents (hf : FreshFiles st V) : Represents V [] st ByteArrays.fresh where
  heap := hf.heap
  file v hv := by
    obtain ⟨htype, hsize, hcap⟩ := hf.file v hv
    refine ⟨(hf.vnode v hv).1, (hf.heap.start_pos _ (hf.node v hv)).ne', htype, ?_, ⟨0, hcap⟩, ?_, ?_,
      ?_⟩
    · rw [hcap]
      exact hf.data v hv
    · rw [hcap]
      decide
    · rw [hsize]
      exact Nat.zero_le _
    · rw [hsize]
      rfl
  node_inj := hf.node_inj
  data_inj := hf.data_inj
  null := rfl
  handle h hh := nomatch hh

theorem FileHolds.size_eq (hf : FileHolds st v bs) : (st.internal v).size = bs.length := by
  rw [← hf.content, ByteMem.read_length]

/-- A file keeps its content when its node, its buffer and the bytes in it stay. -/
theorem FileHolds.frame (hf : FileHolds st v bs)
    (hv : (st'.vnodes v).internal = (st.vnodes v).internal) (hn : st'.internal v = st.internal v)
    (hlive : ((st.internal v).data, (st.internal v).capacity) ∈ st'.heap.live)
    (hmem : ∀ x, (st.internal v).data ≤ x → x < (st.internal v).data + (st.internal v).capacity →
      st'.mem x = st.mem x) : FileHolds st' v bs := by
  have hread : ByteMem.read st'.mem (st.internal v).data (st.internal v).size = bs := by
    rw [ByteMem.read_congr _ _ fun x hlo hhi => hmem x hlo (by have := hf.size_le; omega)]
    exact hf.content
  refine ⟨hf.vnode, hv ▸ hf.node, ?_, ?_, ?_, ?_, ?_, ?_⟩ <;> rw [hn]
  · exact hf.file
  · exact hlive
  · exact hf.capacity
  · exact hf.capacity_le
  · exact hf.size_le
  · exact hread

/-- Steps on a handle change its entry only. -/
theorem Represents.setHandle (hr : Represents V opened st m) (h0 : h ≠ 0) {f : File → File}
    {x : Option (ℕ × ℕ)} {opened' : List ℕ} (hsub : ∀ k ∈ opened', k = h ∨ k ∈ opened)
    (hx : HandleHolds V (st.setFile h f) h x) :
    Represents V opened' (st.setFile h f) (m.setHandle h x) where
  heap := hr.heap
  file v hv := (hr.file v hv).frame rfl rfl (hr.file v hv).live fun _ _ _ => rfl
  node_inj := hr.node_inj
  data_inj := hr.data_inj
  null := by
    change Function.update m.handles h x 0 = none
    rw [Function.update_of_ne h0.symm]
    exact hr.null
  handle k hk := by
    change k ≠ 0 ∧ HandleHolds V (st.setFile h f) k (Function.update m.handles h x k)
    by_cases heq : k = h
    · subst heq
      rw [Function.update_self]
      exact ⟨h0, hx⟩
    · obtain ⟨hk0, hholds⟩ := hr.handle k ((hsub k hk).resolve_left heq)
      have hfile : (st.setFile h f).files k = st.files k := Function.update_of_ne heq _ _
      rw [Function.update_of_ne heq]
      refine ⟨hk0, ?_⟩
      cases hm : m.handles k with
      | none =>
          rw [hm] at hholds
          simpa only [HandleHolds, hfile] using hholds
      | some x =>
          rw [hm] at hholds
          simpa only [HandleHolds, hfile] using hholds

theorem HandleHolds.setFile {f : File → File} (hv : v ∈ V) (hvnode : (f (st.files h)).vnode = v)
    (hpos : (f (st.files h)).fPos = pos) (hlt : pos < 2 ^ 63) :
    HandleHolds V (st.setFile h f) h (some (v, pos)) := by
  have hself : (st.setFile h f).files h = f (st.files h) := Function.update_self ..
  exact ⟨hv, by rw [hself, hvnode], by rw [hself, hpos], hlt⟩

theorem Represents.handleHolds (hr : Represents V opened st m) (hh : h = 0 ∨ h ∈ opened) :
    (m.handles h = none ∧ st.badFile h) ∨
      ∃ v pos, m.handles h = some (v, pos) ∧ h ≠ 0 ∧ v ∈ V ∧ (st.files h).vnode = v ∧
        (st.files h).fPos = pos ∧ pos < 2 ^ 63 ∧ ¬ st.badFile h := by
  rcases hh with rfl | hh
  · exact Or.inl ⟨hr.null, Or.inl rfl⟩
  · obtain ⟨h0, hholds⟩ := hr.handle h hh
    cases hm : m.handles h with
    | none =>
        rw [hm] at hholds
        exact Or.inl ⟨rfl, Or.inr (Or.inl hholds)⟩
    | some x =>
        obtain ⟨v, pos⟩ := x
        rw [hm] at hholds
        obtain ⟨hv, hvnode, hpos, hlt⟩ := hholds
        refine Or.inr ⟨v, pos, rfl, h0, hv, hvnode, hpos, hlt, ?_⟩
        rintro (hbad | hbad | hbad)
        · exact h0 hbad
        · exact (hr.file v hv).vnode (hvnode ▸ hbad)
        · exact (hr.file v hv).node (hvnode ▸ hbad)

end OscKernel.Vfs
