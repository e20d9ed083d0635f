import OscKernel.ByteMemory
import OscKernel.PageAllocator

/-!
# The data of the file systems

The structures of `fs_vfs.h`, `fs_tmpfs.h` and `fs_initramfs.h`. Each kind of structure has its own
map from addresses to records; a map is total, so that a block fresh from `alloc` holds whatever it
held before. `struct tmpfs_node` and `struct initramfs_node` have the same fields and share one map.
File contents live in the byte memory `mem`. Strings are lists of bytes without their terminator,
pointers are addresses, and the null pointer is `0`; a null table of operations is `none`.
-/

namespace OscKernel.Vfs

open Mm (maxAllocSize memorySize)

/-- The blocks in use, by address and size, and the addresses that the next calls of `alloc` are
going to try: any sequence is possible. -/
structure Heap where
  live : List (ℕ × ℕ)
  plan : ℕ → ℕ
  calls : ℕ

/-- A block of `n` bytes at `p` does not touch the block `b`. -/
def Apart (p n : ℕ) (b : ℕ × ℕ) : Prop := p + n ≤ b.1 ∨ b.1 + b.2 ≤ p

instance (p n : ℕ) (b : ℕ × ℕ) : Decidable (Apart p n b) := inferInstanceAs (Decidable (_ ∨ _))

/-- `alloc` takes an `unsigned int`. It returns `NULL` for sizes it does not serve and whenever it
finds no room, and else a block apart from all blocks in use. -/
def Heap.alloc (h : Heap) (size : ℕ) : Heap × ℕ :=
  let size := size % 2 ^ 32
  let p := h.plan h.calls
  let h := { h with calls := h.calls + 1 }
  if size = 0 ∨ maxAllocSize < size ∨ p = 0 ∨ memorySize < p + size ∨
      ∃ b ∈ h.live, ¬ Apart p size b then (h, 0)
  else ({ h with live := (p, size) :: h.live }, p)

def Heap.free (h : Heap) (p : ℕ) : Heap := { h with live := h.live.filter fun b => b.1 ≠ p }

def enoent : ℤ := -2
def enomem : ℤ := -3
def einval : ℤ := -4
def enosys : ℤ := -5
def eacces : ℤ := -6
def eexist : ℤ := -7
def einterr : ℤ := -8
def enodev : ℤ := -9
def ebusy : ℤ := -11

def seekSet : ℤ := 0
def seekCur : ℤ := 1
def seekEnd : ℤ := 2

def maxFileName : ℕ := 64
def maxChildren : ℕ := 16
def defaultFileSize : ℕ := 4096
def maxFilesystems : ℕ := 10

/-- The tables `tmpfs_v_ops` and `initramfs_v_ops`. -/
inductive VnodeOps where
  | tmpfs | initramfs
  deriving DecidableEq, Repr

/-- The tables `tmpfs_f_ops`, `initramfs_f_ops`, `uart_f_ops` and `framebuffer_f_ops`. -/
inductive FileOps where
  | tmpfs | initramfs | uart | framebuffer
  deriving DecidableEq, Repr

inductive NodeType where
  | file | directory
  deriving DecidableEq, Repr

structure Vnode where
  mount : ℕ
  vOps : Option VnodeOps
  fOps : Option FileOps
  internal : ℕ
  parent : ℕ
  parentIsMount : Bool

structure File where
  vnode : ℕ
  fPos : ℕ
  fOps : Option FileOps
  flags : BitVec 32

structure Mount where
  root : ℕ
  fs : ℕ

/-- `struct tmpfs_node` and `struct initramfs_node`. -/
structure Node where
  name : List UInt8
  type : NodeType
  parent : ℕ
  data : ℕ
  size : ℕ
  capacity : ℕ
  children : ℕ → ℕ
  numChildren : ℕ

/-- `struct filesystem`, with the file system whose `setup_mount` it has. -/
structure Filesystem where
  name : List UInt8
  setupMount : Option VnodeOps

def sizeofVnode : ℕ := 48
def sizeofFile : ℕ := 32
def sizeofMount : ℕ := 16
def sizeofNode : ℕ := 240
def sizeofFilesystem : ℕ := 16

structure State where
  heap : Heap
  mem : ByteMem
  vnodes : ℕ → Vnode
  nodes : ℕ → Node
  mounts : ℕ → Mount
  files : ℕ → File
  fsTable : ℕ → Filesystem
  filesystems : List ℕ
  rootfs : ℕ

def State.alloc (st : State) (size : ℕ) : State × ℕ :=
  let r := st.heap.alloc size
  ({ st with heap := r.1 }, r.2)

def State.free (st : State) (p : ℕ) : State := { st with heap := st.heap.free p }

def State.setVnode (st : State) (v : ℕ) (f : Vnode → Vnode) : State :=
  { st with vnodes := Function.update st.vnodes v (f (st.vnodes v)) }

def State.setNode (st : State) (n : ℕ) (f : Node → Node) : State :=
  { st with nodes := Function.update st.nodes n (f (st.nodes n)) }

def State.setFile (st : State) (h : ℕ) (f : File → File) : State :=
  { st with files := Function.update st.files h (f (st.files h)) }

def State.setMount (st : State) (m : ℕ) (f : Mount → Mount) : State :=
  { st with mounts := Function.update st.mounts m (f (st.mounts m)) }

/-- The node behind a vnode. -/
def State.internal (st : State) (v : ℕ) : Node := st.nodes (st.vnodes v).internal

@[simp] theorem State.internal_setNode_self (st : State) (v : ℕ) (f : Node → Node) :
    (st.setNode (st.vnodes v).internal f).internal v = f (st.internal v) :=
  Function.update_self ..

theorem State.internal_setNode_of_ne (st : State) {v n : ℕ} (f : Node → Node)
    (h : (st.vnodes v).internal ≠ n) : (st.setNode n f).internal v = st.internal v :=
  Function.update_of_ne h ..

theorem State.vnodes_setVnode_self (st : State) (v : ℕ) (f : Vnode → Vnode) :
    (st.setVnode v f).vnodes v = f (st.vnodes v) :=
  Function.update_self ..

theorem State.vnodes_setVnode_of_ne (st : State) {v w : ℕ} (f : Vnode → Vnode) (h : w ≠ v) :
    (st.setVnode v f).vnodes w = st.vnodes w :=
  Function.update_of_ne h ..

theorem State.vnodes_setFOps (st : State) (v : ℕ) (ops : FileOps) (w : ℕ) :
    (st.setVnode v fun e => { e with fOps := some ops }).vnodes w =
      { st.vnodes w with fOps := if w = v then some ops else (st.vnodes w).fOps } := by
  by_cases hw : w = v
  · rw [hw, State.vnodes_setVnode_self, if_pos rfl]
  · rw [State.vnodes_setVnode_of_ne _ _ hw, if_neg hw]

/-- A change that is undone. -/
theorem State.setVnode_undo (st : State) (v : ℕ) {f g : Vnode → Vnode}
    (h : g (f (st.vnodes v)) = st.vnodes v) : (st.setVnode v f).setVnode v g = st := by
  simp only [State.setVnode, Function.update_self, Function.update_idem, h, Function.update_eq_self]

/-- Conversion of a `size_t` to the return type `int`. -/
def toInt (n : ℕ) : ℤ := Int.bmod n (2 ^ 32)

end OscKernel.Vfs
