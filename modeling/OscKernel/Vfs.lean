import OscKernel.CStrings
import OscKernel.Tmpfs

/-!
# The virtual file system

The functions of `fs_vfs.c`, with the operations of `fs_initramfs.c`, `dev_uart.c` and
`dev_framebuffer.c` behind them. A function that would use a null pointer returns `none`.
-/

namespace OscKernel.Vfs

def slash : UInt8 := 47
def dotName : List UInt8 := [46]
def dotDotName : List UInt8 := [46, 46]

/-- `initramfs_lookup` has the text of `tmpfs_lookup`, and so have its open, close, read and seek. -/
def initramfsLookup : State → ℕ → ℕ → List UInt8 → ℤ × ℕ := tmpfsLookup
def initramfsOpen : State → ℕ → ℕ → State × ℤ := tmpfsOpen
def initramfsClose : State → ℕ → State × ℤ := tmpfsClose
def initramfsRead : State → ℕ → Bool → ℕ → State × ℤ × List UInt8 := tmpfsRead
def initramfsLseek64 : State → ℕ → ℤ → ℤ → State × ℤ := tmpfsLseek64

def initramfsSetupMount (st : State) (fs mount : ℕ) : State × ℤ :=
  if fs = 0 ∨ mount = 0 then (st, einval)
  else
    let (st, root) := st.alloc sizeofNode
    if root = 0 then (st, enomem)
    else
      let (st, v) := st.alloc sizeofVnode
      let st := st.setMount mount fun _ => { root := v, fs := fs }
      if v = 0 then (tmpfsDiscardNode st root, enomem)
      else
        (st.setVnode v fun e =>
          { e with mount := 0, vOps := some .initramfs, fOps := some .initramfs, internal := root,
                   parentIsMount := true }, 0)

structure Entry where
  name : List UInt8
  data : List UInt8

/-- The body of the loop of `initramfs_init` for one entry. `none` when it writes through a null
pointer. -/
def initramfsAddEntry (st : State) (root : ℕ) (e : Entry) : Option State :=
  let (st, n) := st.alloc sizeofNode
  if n = 0 then none
  else
    let (st, data) := st.alloc e.data.length
    if data = 0 ∧ e.data ≠ [] then none
    else
      let st := { st with mem := ByteMem.write st.mem data e.data }
      let st := st.setNode n fun _ =>
        { newNode e.name .file 0 with
          data := data, size := e.data.length, capacity := e.data.length }
      let (st, v) := st.alloc sizeofVnode
      if v = 0 then none
      else
        let st := st.setVnode v fun _ =>
          { mount := 0, vOps := some .initramfs, fOps := some .initramfs, internal := n, parent := root,
            parentIsMount := false }
        some (st.setNode (st.vnodes root).internal fun r =>
          { r with children := Function.update r.children r.numChildren v,
                   numChildren := r.numChildren + 1 })

def initramfsInit (st : State) (root : ℕ) (entries : List Entry) : Option State :=
  if root = 0 then none
  else
    let st := st.setNode (st.vnodes root).internal fun e => { e with type := .directory }
    entries.foldlM (fun st e => initramfsAddEntry st root e) st

/-- `dev_uart_open` and `dev_framebuffer_open`: a second structure replaces `*target`. -/
def devOpen (ops : FileOps) (st : State) (v : ℕ) : State × ℤ × ℕ :=
  let (st, h) := st.alloc sizeofFile
  if h = 0 then (st, enomem, 0)
  else (st.setFile h fun e => { e with vnode := v, fPos := 0, fOps := some ops }, 0, h)

def devUartOpen : State → ℕ → State × ℤ × ℕ := devOpen .uart
def devFramebufferOpen : State → ℕ → State × ℤ × ℕ := devOpen .framebuffer

def devClose (st : State) (file : ℕ) : State × ℤ := if file = 0 then (st, einval) else (st.free file, 0)

def VnodeOps.lookup : VnodeOps → State → ℕ → ℕ → List UInt8 → ℤ × ℕ
  | .tmpfs => tmpfsLookup
  | .initramfs => initramfsLookup

def VnodeOps.create : VnodeOps → State → ℕ → ℕ → List UInt8 → State × ℤ × ℕ
  | .tmpfs, st, dir, target, name => tmpfsCreate st dir target name
  | .initramfs, st, _, target, _ => (st, eacces, target)

def VnodeOps.mkdir : VnodeOps → State → ℕ → ℕ → List UInt8 → State × ℤ × ℕ
  | .tmpfs, st, dir, target, name => tmpfsMkdir st dir target name
  | .initramfs, st, _, target, _ => (st, eacces, target)

def VnodeOps.setupMount : VnodeOps → State → ℕ → ℕ → State × ℤ
  | .tmpfs => tmpfsSetupMount
  | .initramfs => initramfsSetupMount

def FileOps.open : FileOps → State → ℕ → ℕ → State × ℤ × ℕ
  | .tmpfs, st, v, target => let (st, r) := tmpfsOpen st v target; (st, r, target)
  | .initramfs, st, v, target => let (st, r) := initramfsOpen st v target; (st, r, target)
  | .uart, st, v, _ => devUartOpen st v
  | .framebuffer, st, v, _ => devFramebufferOpen st v

def FileOps.close : FileOps → State → ℕ → State × ℤ
  | .tmpfs => tmpfsClose
  | .initramfs => initramfsClose
  | .uart => devClose
  | .framebuffer => devClose

def State.root (st : State) : ℕ := (st.mounts st.rootfs).root

/-- The `cwd` of the current task and a local variable of the caller: the two places to which the
`target` of `vfs_lookup` points. -/
structure Cells where
  cwd : ℕ
  tmp : ℕ

inductive Target where
  | cwd | tmp

def Cells.set (c : Cells) (t : Target) (v : ℕ) : Cells :=
  match t with
  | .cwd => { c with cwd := v }
  | .tmp => { c with tmp := v }

def strdup (st : State) (s : List UInt8) : State × ℕ := st.alloc (s.length + 1)

/-- `get_next_component` on a buffer with a string of at most `n` bytes at `pos`: the buffer, the new
value of `*path_ptr` and the component. -/
def getNextComponent (n : ℕ) (buf : ByteMem) (pos : ℕ) : ByteMem × ℕ × Option ℕ :=
  if buf pos = 0 then (buf, pos, none)
  else
    let component := CStrings.scan buf (· = slash) n pos
    if buf component = 0 then (buf, component, none)
    else
      let stop := CStrings.scan buf (fun b => b ≠ 0 ∧ b ≠ slash) n component
      if buf stop = slash then (Function.update buf stop 0, stop + 1, some component)
      else (buf, stop, some component)

def walkUp (st : State) (current : ℕ) : Except ℤ ℕ :=
  let parent := (st.vnodes current).parent
  if current = st.root then .ok current
  else if parent = 0 then .error einterr
  else
    let mount := (st.vnodes parent).mount
    if mount ≠ 0 ∧ (st.mounts mount).root = current then
      if parent = st.root then .ok st.root
      else if (st.vnodes parent).parent ≠ 0 then .ok (st.vnodes parent).parent
      else .error einterr
    else .ok parent

def cross (st : State) (v : ℕ) : ℕ :=
  if (st.vnodes v).mount ≠ 0 then (st.mounts (st.vnodes v).mount).root else v

/-- The step of `vfs_lookup` for a component that is neither `.` nor `..`. -/
def walkDown (st : State) (current : ℕ) (name : List UInt8) : Except ℤ ℕ :=
  let current := cross st current
  match (st.vnodes current).vOps with
  | none => .error enosys
  | some ops =>
      let (result, next) := ops.lookup st current 0 name
      if result ≠ 0 then .error result else .ok (cross st next)

/-- The loop of `vfs_lookup`. Each round shortens the string of at most `n` bytes at `pos`, so `n`
rounds are enough. Only `..` and the end of the path write the target. -/
def vfsWalk (st : State) (target : Target) (n : ℕ) : ℕ → ByteMem → ℕ → ℕ → Cells → ℤ × Cells
  | 0, _, _, _, cells => (einterr, cells)
  | fuel + 1, buf, pos, current, cells =>
      match getNextComponent n buf pos with
      | (_, _, none) => (0, cells.set target current)
      | (buf, pos, some component) =>
          let name := CStrings.str buf n component
          if name = dotName then vfsWalk st target n fuel buf pos current cells
          else if name = dotDotName then
            match walkUp st current with
            | .error code => (code, cells)
            | .ok v =>
                vfsWalk st target n fuel buf pos v
                  (if current = st.root then cells else cells.set target v)
          else
            match walkDown st current name with
            | .error code => (code, cells)
            | .ok v => vfsWalk st target n fuel buf pos v cells

def vfsLookup (st : State) (cells : Cells) (target : Target) (pathname : Option (List UInt8)) :
    State × ℤ × Cells :=
  match pathname with
  | none => (st, einval, cells)
  | some path =>
      let cells := cells.set target 0
      let (st, copy) := strdup st path
      if copy = 0 then (st, enomem, cells)
      else
        let absolute := path.head? = some slash
        if ¬ absolute ∧ cells.cwd = 0 then (st.free copy, einterr, cells)
        else
          let current := if absolute then st.root else cells.cwd
          if path = [slash] then (st.free copy, 0, cells.set target st.root)
          else if path = [] ∨ path = dotName then (st.free copy, 0, cells.set target current)
          else
            let buf := ByteMem.write (fun _ => 0) 0 (path ++ [0])
            let (result, cells) := vfsWalk st target path.length (path.length + 1) buf 0 current cells
            (st.free copy, result, cells)

/-- `vfs_lookup(pathname, &v)` for a local variable `v`, from the directory `cwd`. -/
def lookupPath (st : State) (cwd : ℕ) (path : List UInt8) : State × ℤ × ℕ :=
  let (st, result, cells) := vfsLookup st ⟨cwd, 0⟩ .tmp (some path)
  (st, result, cells.tmp)

/-- The search for the last slash among the first `i` bytes, from the end. -/
def lastSlash (path : List UInt8) : ℕ → Option ℕ
  | 0 => none
  | i + 1 => if path[i]? = some slash then some i else lastSlash path i

/-- The directory that `vfs_open` and `vfs_mkdir` create in, for the result of `lastSlash`. `cwd` is
the directory for a path without a slash. -/
def lookupParent (st : State) (cwd : ℕ) (path : List UInt8) (last : Option ℕ) : State × ℤ × ℕ :=
  match last with
  | none => (st, 0, cwd)
  | some 0 => lookupPath st cwd [slash]
  | some (i + 1) => lookupPath st cwd (path.take (i + 1))

def baseName (path : List UInt8) (last : Option ℕ) : List UInt8 :=
  match last with
  | none => path
  | some i => path.drop (i + 1)

/-- The part of `vfs_open` behind `flags & O_CREAT`. When the creation is refused, its code is dropped
and the vnode is what the call left in the variable: here an error `.inl` is returned by `vfs_open`,
and `.inr` is the vnode to open. -/
def vfsOpenCreate (st : State) (cwd : ℕ) (path : List UInt8) (vnode : ℕ) : State × (ℤ ⊕ ℕ) :=
  let (st, copy) := strdup st path
  if copy = 0 then (st, .inl enomem)
  else
    let last := lastSlash path path.length
    let start := if last = none ∧ cwd = 0 then st.root else cwd
    let (st, ret, parent) := lookupParent st start path last
    if ret ≠ 0 then (st.free copy, .inl ret)
    else if parent = 0 then (st.free copy, .inl eacces)
    else
      match (st.vnodes parent).vOps with
      | none => (st.free copy, .inl eacces)
      | some ops =>
          let (st, _, v) := ops.create st parent vnode (baseName path last)
          (st.free copy, .inr v)

def oCreat (flags : BitVec 32) : Bool := flags.getLsbD 6

/-- The end of `vfs_open`, with the vnode to open; the last component is the new `*target`. -/
def vfsOpenVnode (st : State) (flags : BitVec 32) (vnode : ℕ) : Option (State × ℤ × ℕ) :=
  let (st, file) := st.alloc sizeofFile
  if vnode = 0 then none
  else
    match (st.vnodes vnode).fOps with
    | none => none
    | some ops =>
        let (st, ret, file) := ops.open st vnode file
        if ret ≠ 0 then some (st.free file, ret, file)
        else some (st.setFile file fun e => { e with flags := flags }, 0, file)

def vfsOpen (st : State) (cwd : ℕ) (pathname : Option (List UInt8)) (flags : BitVec 32)
    (target : ℕ) : Option (State × ℤ × ℕ) :=
  match pathname with
  | none => some (st, einval, target)
  | some path =>
      let (st, result, vnode) := lookupPath st cwd path
      if result ≠ 0 then
        if oCreat flags then
          match vfsOpenCreate st cwd path vnode with
          | (st, .inl ret) => some (st, ret, 0)
          | (st, .inr vnode) => vfsOpenVnode st flags vnode
        else some (st, result, 0)
      else vfsOpenVnode st flags vnode

def vfsClose (st : State) (file : ℕ) : State × ℤ :=
  if file = 0 then (st, einval)
  else
    match (st.files file).fOps with
    | none => (st, enosys)
    | some ops => ops.close st file

def vfsMkdir (st : State) (cwd : ℕ) (pathname : Option (List UInt8)) : State × ℤ :=
  match pathname with
  | none => (st, einval)
  | some path =>
      let (st, copy) := strdup st path
      if copy = 0 then (st, enomem)
      else
        let last := lastSlash path path.length
        if last = none ∧ cwd = 0 then (st.free copy, einterr)
        else
          let (st, ret, parent) := lookupParent st cwd path last
          if ret ≠ 0 then (st.free copy, ret)
          else if baseName path last = [] then (st.free copy, einval)
          else if parent = 0 then (st.free copy, eacces)
          else
            match (st.vnodes parent).vOps with
            | none => (st.free copy, eacces)
            | some ops =>
                let (st, ret, _) := ops.mkdir st parent 0 (baseName path last)
                (st.free copy, ret)

def vfsMknod (st : State) (cwd : ℕ) (pathname : Option (List UInt8)) (fOps : Option FileOps) :
    Option (State × ℤ) :=
  match pathname with
  | none => some (st, einval)
  | some path => do
      let (st, ret, dev) ← vfsOpen st cwd (some path) 64 0
      if ret ≠ 0 then some (st, ret)
      else some (vfsClose (st.setVnode (st.files dev).vnode fun e => { e with fOps := fOps }) dev)

def registerFilesystem (st : State) (fs : ℕ) : State × ℤ :=
  if fs = 0 then (st, einval)
  else if st.filesystems.length < maxFilesystems then
    if ∃ f ∈ st.filesystems, (st.fsTable f).name = (st.fsTable fs).name then (st, eexist)
    else ({ st with filesystems := st.filesystems ++ [fs] }, 0)
  else (st, enomem)

def mountVnode (st : State) (v fs : ℕ) : State × ℤ :=
  let (st, m) := st.alloc sizeofMount
  if m = 0 then (st, enomem)
  else
    let st := st.setMount m fun _ => { root := 0, fs := fs }
    let st := st.setVnode v fun e => { e with mount := m }
    match (st.fsTable fs).setupMount with
    | none => (st.free m, enosys)
    | some ops =>
        let (st, result) := ops.setupMount st fs m
        if result ≠ 0 then ((st.setVnode v fun e => { e with mount := 0 }).free m, result)
        else (st.setVnode (st.mounts m).root fun e => { e with parent := v }, 0)

def vfsMount (st : State) (cwd : ℕ) (target filesystem : Option (List UInt8)) : State × ℤ :=
  match target, filesystem with
  | some path, some name =>
      match st.filesystems.find? fun f => (st.fsTable f).name = name with
      | none => (st, enodev)
      | some fs =>
          let (st, result, v) := lookupPath st cwd path
          if result ≠ 0 then (st, result)
          else if (st.vnodes v).vOps = none then (st, enosys)
          else if (st.vnodes v).mount ≠ 0 ∨ (st.vnodes v).parentIsMount then (st, ebusy)
          else mountVnode st v fs
  | _, _ => (st, einval)

def registerBackend (st : State) (name : List UInt8) (ops : VnodeOps) : Option State :=
  let (st, fs) := st.alloc sizeofFilesystem
  if fs = 0 then none
  else
    let st := { st with fsTable := Function.update st.fsTable fs ⟨name, some ops⟩ }
    some (registerFilesystem st fs).1

def tmpfsName : List UInt8 := [116, 109, 112, 102, 115]
def initramfsName : List UInt8 := [105, 110, 105, 116, 114, 97, 109, 102, 115]

/-- The first part of `vfs_init`, up to the root of the root file system. `none` when there is no memory
for it. -/
def mountRoot (st : State) : Option State := do
  let st ← registerBackend st tmpfsName .tmpfs
  let (st, m) := st.alloc sizeofMount
  if m = 0 then none
  else
    let st := { st with rootfs := m }
    let fs ← st.filesystems.head?
    let ops ← (st.fsTable fs).setupMount
    let (st, ret) := ops.setupMount st fs m
    if ret ≠ 0 then none
    else some (st.setVnode (st.mounts m).root fun e => { e with parent := 0 })

end OscKernel.Vfs
