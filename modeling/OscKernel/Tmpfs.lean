import OscKernel.FileSystem

/-!
# The memory file system

The operations of `fs_tmpfs.c`. A function with an output parameter `*target` takes the old value of
the target and returns the new one beside its result code. The buffer of a client is given by its
contents, and a null buffer is `none`.
-/

namespace OscKernel.Vfs

/-- The fields that `tmpfs_create_internal_node` sets before it allocates the data of a file. -/
def newNode (name : List UInt8) (type : NodeType) (parent : ℕ) : Node where
  name := name
  type := type
  parent := parent
  data := 0
  size := 0
  capacity := 0
  children := fun _ => 0
  numChildren := 0

def tmpfsCreateInternalNode (st : State) (name : List UInt8) (type : NodeType) (parent : ℕ) :
    State × ℕ :=
  let (st, n) := st.alloc sizeofNode
  if n = 0 then (st, 0)
  else
    let st := st.setNode n fun _ => newNode name type parent
    if type = .file then
      let (st, data) := st.alloc defaultFileSize
      if data = 0 then (st.free n, 0)
      else (st.setNode n fun e => { e with data := data, capacity := defaultFileSize }, n)
    else (st, n)

def tmpfsDiscardNode (st : State) (n : ℕ) : State :=
  let st := if (st.nodes n).data = 0 then st else st.free (st.nodes n).data
  st.free n

def tmpfsSetupMount (st : State) (fs mount : ℕ) : State × ℤ :=
  if fs = 0 ∨ mount = 0 then (st, einval)
  else
    let (st, root) := tmpfsCreateInternalNode st [47] .directory 0
    if root = 0 then (st, enomem)
    else
      let (st, v) := st.alloc sizeofVnode
      let st := st.setMount mount fun _ => { root := v, fs := fs }
      if v = 0 then (tmpfsDiscardNode st root, enomem)
      else
        (st.setVnode v fun e =>
          { e with mount := 0, vOps := some .tmpfs, fOps := some .tmpfs, internal := root,
                   parentIsMount := true }, 0)

def findChild (st : State) (n : Node) (name : List UInt8) : Option ℕ :=
  ((List.range n.numChildren).map n.children).find? fun c => (st.internal c).name = name

def tmpfsLookup (st : State) (dir target : ℕ) (name : List UInt8) : ℤ × ℕ :=
  if dir = 0 ∨ (st.vnodes dir).internal = 0 then (einval, target)
  else if (st.internal dir).type ≠ .directory then (eacces, 0)
  else
    match findChild st (st.internal dir) name with
    | some c => (0, c)
    | none => (enoent, 0)

def tmpfsCreateOrMkdir (st : State) (dir target : ℕ) (name : List UInt8) (type : NodeType) :
    State × ℤ × ℕ :=
  if dir = 0 ∨ (st.vnodes dir).internal = 0 ∨ name = [] then (st, einval, target)
  else if (st.internal dir).type ≠ .directory then (st, eacces, 0)
  else if maxFileName ≤ name.length then (st, einval, 0)
  else if (findChild st (st.internal dir) name).isSome then (st, eexist, 0)
  else if maxChildren ≤ (st.internal dir).numChildren then (st, enomem, 0)
  else
    let parent := (st.vnodes dir).internal
    let (st, n) := tmpfsCreateInternalNode st name type parent
    if n = 0 then (st, enomem, 0)
    else
      let (st, v) := st.alloc sizeofVnode
      if v = 0 then (tmpfsDiscardNode st n, enomem, 0)
      else
        let st := st.setVnode v fun _ =>
          { mount := (st.vnodes dir).mount, vOps := some .tmpfs, fOps := some .tmpfs, internal := n,
            parent := dir, parentIsMount := false }
        let st := st.setNode parent fun e =>
          { e with children := Function.update e.children e.numChildren v,
                   numChildren := e.numChildren + 1 }
        (st, 0, v)

def tmpfsCreate (st : State) (dir target : ℕ) (name : List UInt8) : State × ℤ × ℕ :=
  tmpfsCreateOrMkdir st dir target name .file

def tmpfsMkdir (st : State) (dir target : ℕ) (name : List UInt8) : State × ℤ × ℕ :=
  tmpfsCreateOrMkdir st dir target name .directory

def tmpfsOpen (st : State) (v target : ℕ) : State × ℤ :=
  if v = 0 ∨ target = 0 then (st, einval)
  else (st.setFile target fun e =>
    { e with fPos := 0, vnode := v, fOps := (st.vnodes v).fOps }, 0)

def tmpfsClose (st : State) (file : ℕ) : State × ℤ :=
  if file = 0 then (st, einval)
  else (st.setFile file fun _ => { vnode := 0, fPos := 0, fOps := none, flags := 0 }, 0)

def State.badFile (st : State) (file : ℕ) : Prop :=
  file = 0 ∨ (st.files file).vnode = 0 ∨ (st.vnodes (st.files file).vnode).internal = 0

instance (st : State) (file : ℕ) : Decidable (st.badFile file) :=
  inferInstanceAs (Decidable (_ ∨ _))

/-- The doubling loop. In 65 rounds it has ended or the capacity has wrapped around to `0`, which
doubling does not change. -/
def doubleCapacity (required : ℕ) : ℕ → ℕ → Option ℕ
  | 0, _ => none
  | fuel + 1, capacity =>
      if capacity < required then doubleCapacity required fuel (capacity * 2 % 2 ^ 64)
      else some capacity

/-- Gives the node `n` a larger buffer; `false` when `alloc` fails, `none` when the loop does not
end. Both `alloc` and `memcpy` take an `unsigned int`. -/
def tmpfsGrow (st : State) (n required : ℕ) : Option (State × Bool) := do
  let node := st.nodes n
  let capacity ← doubleCapacity required 65
    (if 0 < node.capacity then node.capacity else defaultFileSize)
  if node.capacity < capacity then
    let (st, data) := st.alloc capacity
    if data = 0 then some (st, false)
    else
      let st := if node.data = 0 then st else
        { st with mem := ByteMem.copy st.mem data node.data (node.size % 2 ^ 32) }.free node.data
      some (st.setNode n fun e => { e with data := data, capacity := capacity }, true)
  else some (st, true)

def tmpfsStore (st : State) (file n : ℕ) (bytes : List UInt8) : State :=
  let pos := (st.files file).fPos
  let newPos := (pos + bytes.length) % 2 ^ 64
  let mem := ByteMem.write st.mem ((st.nodes n).data + pos) (bytes.take (bytes.length % 2 ^ 32))
  let st := { st with mem := mem }
  let st := st.setFile file fun e => { e with fPos := newPos }
  if (st.nodes n).size < newPos then st.setNode n fun e => { e with size := newPos } else st

def tmpfsWrite (st : State) (file : ℕ) (buf : Option (List UInt8)) : Option (State × ℤ) :=
  match buf with
  | none => some (st, einval)
  | some bytes =>
      if st.badFile file then some (st, einval)
      else if bytes.length = 0 then some (st, 0)
      else
        let n := (st.vnodes (st.files file).vnode).internal
        let required := ((st.files file).fPos + bytes.length) % 2 ^ 64
        if (st.nodes n).type ≠ .file then some (st, eacces)
        else if (st.nodes n).capacity < required then do
          let (st, ok) ← tmpfsGrow st n required
          if ok then some (tmpfsStore st file n bytes, toInt bytes.length) else some (st, enomem)
        else some (tmpfsStore st file n bytes, toInt bytes.length)

/-- The bytes are what the client finds in its buffer; `buf` says whether it has one. -/
def tmpfsRead (st : State) (file : ℕ) (buf : Bool) (len : ℕ) : State × ℤ × List UInt8 :=
  if st.badFile file ∨ buf = false then (st, einval, [])
  else if len = 0 then (st, 0, [])
  else
    let node := st.internal (st.files file).vnode
    let pos := (st.files file).fPos
    if node.type ≠ .file then (st, eacces, [])
    else if node.size ≤ pos then (st, 0, [])
    else
      let readable := if node.size < (pos + len) % 2 ^ 64 then node.size - pos else len
      (st.setFile file fun e => { e with fPos := (pos + readable) % 2 ^ 64 }, toInt readable,
        ByteMem.read st.mem (node.data + pos) (readable % 2 ^ 32))

def tmpfsLseek64 (st : State) (file : ℕ) (offset whence : ℤ) : State × ℤ :=
  if st.badFile file then (st, einval)
  else
    let node := st.internal (st.files file).vnode
    if node.type ≠ .file then (st, einval)
    else
      let base : Option ℤ :=
        if whence = seekSet then some 0
        else if whence = seekCur then some (st.files file).fPos
        else if whence = seekEnd then some node.size
        else none
      match base with
      | none => (st, einval)
      | some base =>
          let newPos := Int.bmod (base + offset) (2 ^ 64)
          if newPos < 0 then (st, einval)
          else (st.setFile file fun e => { e with fPos := newPos.toNat }, newPos)

end OscKernel.Vfs
