import OscKernel.StoredCalls
import OscKernel.VfsSystem

/-!
# System calls as operations on files

What a client of the system calls may rely on: there are files, each with its bytes, and descriptors, some
of which have a file and a position. `Allows` says for each call what it may return and what it may do to
them. A descriptor of a device or of a directory counts as one without a file.
-/

namespace OscKernel.Vfs

open OpenFiles (Adds OneMore)

abbrev Descriptor := ℕ × Fin threadMaxFd

abbrev FileStore := OpenFiles ℕ Descriptor VnodeOps

structure OpenFile where
  descriptor : Descriptor
  vnode : ℕ
  pos : ℕ
  kind : VnodeOps
  bytes : List UInt8

namespace FileStore

def lookup (m : FileStore) (t : ℕ) (fd : ℤ) : Option OpenFile := do
  let i ← slot fd
  let (v, pos) ← m.handle (t, i)
  let (kind, bytes) ← m.content v
  some ⟨(t, i), v, pos, kind, bytes⟩

def moveTo (m : FileStore) (f : OpenFile) (pos : ℕ) : FileStore :=
  m.setHandle f.descriptor (some (f.vnode, pos))

/-- The archive cannot be written. A file of the memory file system may be out of memory only where it has to
grow. -/
def WriteMay (m : FileStore) (f : OpenFile) (bytes : List UInt8) (x : ℤ) (m' : FileStore) : Prop :=
  match f.kind with
  | .initramfs => x = eacces ∧ m' = m
  | .tmpfs =>
      x = enomem ∧ f.bytes.length < f.pos + bytes.length ∧ m' = m ∨
        x = bytes.length ∧ ∃ bs', OpenFiles.Written f.bytes f.pos bytes bs' ∧
          m' = FileStore.moveTo (m.setContent f.vnode (.tmpfs, bs')) f (f.pos + bytes.length)

def seekTarget (f : OpenFile) (offset whence : ℤ) : Option ℕ :=
  let base : Option ℤ :=
    if whence = seekSet then some 0
    else if whence = seekCur then some f.pos
    else if whence = seekEnd then some f.bytes.length
    else none
  base.bind fun base =>
    if 0 ≤ base + offset ∧ base + offset < 2 ^ 63 then some (base + offset).toNat else none

/-- The value of `x[0]` and the bytes delivered that a call may have, and the store after it. -/
def Allows (m : FileStore) : SysOp → ℤ → List UInt8 → FileStore → Prop
  | .write t fd buf, x, out, m' => out = [] ∧
      match lookup m t fd with
      | none => m' = m
      | some f => if buf.getD [] = [] then x = -1 ∧ m' = m else WriteMay m f (buf.getD []) x m'
  | .read t fd buf count _, x, out, m' =>
      match lookup m t fd with
      | none => m' = m
      | some f =>
          if buf = false then x = einval ∧ out = [] ∧ m' = m
          else out = (f.bytes.drop f.pos).take count ∧ x = out.length ∧ m' = moveTo m f (f.pos + out.length)
  | .lseek t fd offset whence, x, out, m' => out = [] ∧
      match lookup m t fd with
      | none => m' = m
      | some f => x = fd ∧ m' = ((seekTarget f offset whence).map (moveTo m f)).getD m
  | .open t _ flags, x, out, m' => out = [] ∧ OneMore newFile m.content m'.content ∧
      (¬ oCreat flags → m'.content = m.content) ∧
      (m'.handle = m.handle ∨ ∃ (i : Fin threadMaxFd) (v : ℕ), x = (i : ℕ) ∧ m.handle (t, i) = none ∧
        m'.content v ≠ none ∧ m'.handle = Function.update m.handle (t, i) (some (v, 0)))
  | .close t fd, _, out, m' => out = [] ∧ m' = ((slot fd).map fun i => m.setHandle (t, i) none).getD m
  | .start t, _, out, m' => out = [] ∧ m'.content = m.content ∧
      (m' = m ∨ (∀ u i, u ≠ t → m'.handle (u, i) = m.handle (u, i)) ∧
        ∀ i, m'.handle (t, i) = none ∨ ∃ v, m'.handle (t, i) = some (v, 0) ∧ m.content v ≠ none)
  | .fork t _, _, out, m' => out = [] ∧ m'.content = m.content ∧
      (m' = m ∨ m'.handle = fun d => if d.1 = t then none else m.handle d)
  | .reap t _, _, out, m' => out = [] ∧ m'.content = m.content ∧
      m'.handle = fun d => if d.1 = t then none else m.handle d
  | .mknod _ _ _, _, out, m' => out = [] ∧ OneMore newFile m.content m'.content ∧ m'.handle = m.handle
  | .fill _ _ entries, _, out, m' => out = [] ∧ Adds (entries.map Entry.asFile) m.content m'.content ∧
      m'.handle = m.handle
  | .mkdir _ _, _, out, m' | .mount _ _ _, _, out, m' | .chdir _ _, _, out, m' | .register _ _, _, out, m' =>
      out = [] ∧ m' = m

def Step (m : FileStore) (i : SysOp × ℤ × List UInt8) (m' : FileStore) : Prop := Allows m i.1 i.2.1 i.2.2 m'

end FileStore

/-- `sys_write` takes 32 bits of its count, and an offset is a `long`. Beyond that, a read ends below
`2 ^ 64`, so that the sum in `tmpfs_read` does not wrap around, and an archive goes to the root of an
initramfs. -/
def Sys.Fits (s : Sys) : SysOp → Prop
  | .write _ _ buf => ∀ bytes ∈ buf, bytes.length < 2 ^ 32
  | .read t fd _ count _ =>
      ∀ i ∈ slot fd, (s.st.files ((s.tasks t).fdTable i)).fPos + count < 2 ^ 64
  | .lseek _ _ offset _ => -2 ^ 63 ≤ offset ∧ offset < 2 ^ 63
  | .fill t path _ =>
      (s.st.vnodes (leftoverPath s.st (s.tasks t).cwd path.text)).vOps = some .initramfs ∧
        (s.st.vnodes (leftoverPath s.st (s.tasks t).cwd path.text)).parentIsMount = true
  | _ => True

def Sys.delivered (s : Sys) : SysOp → List UInt8
  | .read t fd buf count port => ((sysRead s.st (s.tasks t) fd buf count port).map fun r => r.2.2).getD []
  | _ => []

def Sys.Does (s : Sys) (i : SysOp × ℤ × List UInt8) (s' : Sys) : Prop :=
  s.Valid i.1 ∧ s.Fits i.1 ∧ s.step i.1 = some (s', i.2.1) ∧ s.delivered i.1 = i.2.2

/-- What a slot says about the descriptor: it is empty, or its handle is not on a file, or it is. -/
def HandleShows (st : State) (c : Contents) (file : ℕ) : Option (ℕ × ℕ) → Prop
  | none => file = 0 ∨ ((st.files file).fOps ≠ some .tmpfs ∧ (st.files file).fOps ≠ some .initramfs) ∨
      c (st.files file).vnode = none
  | some (v, pos) => file ≠ 0 ∧ (st.files file).vnode = v ∧ (st.files file).fPos = pos ∧ pos < 2 ^ 63 ∧
      ∃ x, c v = some x ∧ (st.files file).fOps = some x.1.fileOps

structure Sys.Shows (s : Sys) (T : Set ℕ) (m : FileStore) : Prop where
  inv : s.Inv T
  stored : Stored s.st T m.content
  noData : ∀ t i, (s.tasks t).fdTable i ≠ 0 → NoData s.st m.content ((s.tasks t).fdTable i)
  handle : ∀ t i, HandleShows s.st m.content ((s.tasks t).fdTable i) (m.handle (t, i))

variable {s : Sys} {st' : State} {T T' : Set ℕ} {m m' : FileStore} {c' : Contents} {t v file pos : ℕ} {fd : ℤ}
  {i : Fin threadMaxFd} {f : OpenFile} {h : Option (ℕ × ℕ)}

/-- The file of a descriptor. -/
theorem FileStore.lookup_eq_some (hf : FileStore.lookup m t fd = some f) :
    ∃ i, slot fd = some i ∧ f.descriptor = (t, i) ∧ m.handle (t, i) = some (f.vnode, f.pos) ∧
      m.content f.vnode = some (f.kind, f.bytes) := by
  obtain ⟨i, hi, hf⟩ := Option.bind_eq_some_iff.1 hf
  obtain ⟨⟨v, pos⟩, hh, hf⟩ := Option.bind_eq_some_iff.1 hf
  obtain ⟨⟨kind, bytes⟩, hc, hf⟩ := Option.bind_eq_some_iff.1 hf
  obtain rfl := Option.some.inj hf
  exact ⟨i, hi, rfl, hh, hc⟩

theorem FileStore.lookup_of_handle (hi : slot fd = some i) (hd : f.descriptor = (t, i))
    (hh : m.handle (t, i) = some (f.vnode, f.pos)) (hc : m.content f.vnode = some (f.kind, f.bytes)) :
    FileStore.lookup m t fd = some f := by
  rw [FileStore.lookup, hi]
  simp only [Option.bind_eq_bind, Option.bind_some, hh, hc]
  rw [← hd]

/-- A descriptor without a file. -/
theorem Sys.Shows.lookup_eq_none (hs : s.Shows T m) (hf : FileStore.lookup m t fd = none)
    (hi : slot fd = some i) : m.handle (t, i) = none := by
  cases hh : m.handle (t, i) with
  | none => rfl
  | some x =>
      obtain ⟨v, pos⟩ := x
      have hshow := hs.handle t i
      rw [hh] at hshow
      obtain ⟨-, -, -, -, ⟨kind, bytes⟩, hc, -⟩ := hshow
      rw [FileStore.lookup, hi] at hf
      simp only [Option.bind_eq_bind, Option.bind_some, hh, hc] at hf
      cases hf

theorem HandleShows.step {st : State} {c : Contents} (hh : HandleShows st c file h) (hc : Stored st T c)
    (hok : file ≠ 0 → HandleOk st T file) (hf : FilesStep st st' T T' c c') : HandleShows st' c' file h := by
  by_cases h0 : file = 0
  · cases h with
    | none => exact Or.inl h0
    | some x => exact absurd h0 hh.1
  have hfile := hf.handle file (hok h0).live
  cases h with
  | none =>
      rcases hh with h0' | hdev | hnone
      · exact absurd h0' h0
      · refine Or.inr (Or.inl ?_)
        rwa [hfile]
      · refine Or.inr (Or.inr ?_)
        rw [hfile]
        rcases (hok h0).vnode with hv | hv
        · rw [hv]
          exact hf.stored.eq_none fun hin => hf.grows.tree.ne_zero hin rfl
        · rw [hf.old _ hv, hnone]
  | some x =>
      obtain ⟨v, pos⟩ := x
      obtain ⟨-, hvnode, hpos, hlt, y, hy, hops⟩ := hh
      refine ⟨h0, ?_, ?_, hlt, y, ?_, ?_⟩
      · rw [hfile, hvnode]
      · rw [hfile, hpos]
      · rw [hf.old v (hc.stored v y hy).1, hy]
      · rw [hfile, hops]

end OscKernel.Vfs
