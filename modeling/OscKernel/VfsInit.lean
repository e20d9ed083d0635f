import OscKernel.InitramfsMount
import OscKernel.MountCover
import OscKernel.VfsSystem

/-!
# Starting the file system

`vfs_init` mounts the root, mounts and fills the initramfs and makes the devices. After it a lookup below
`/initramfs` finds what the functions on the raw archive find, and reading from what it finds delivers the
bytes that they copy.
-/

namespace OscKernel.Vfs

open ByteMem (Has)
open Cpio (Placed)

variable {st st₁ st₂ st' : State} {T : Set ℕ} {d r v w addr rounds : ℕ} {es : List Newc.Entry}
  {entries : List Entry} {vs : List ℕ} {bs t : List UInt8} {beyond : ℕ → Beyond}

def initramfsPath : List UInt8 := 47 :: initramfsName
def devPath : List UInt8 := [47, 100, 101, 118]
def devFramebufferPath : List UInt8 :=
  [47, 100, 101, 118, 47, 102, 114, 97, 109, 101, 98, 117, 102, 102, 101, 114]

def makeInitramfs (st : State) : Option State := do
  let st ← mountRoot st
  registerBackend (vfsMkdir st 0 (some initramfsPath)).1 initramfsName .initramfs

def fillInitramfs (beyond : ℕ → Beyond) (cpioAddr rounds : ℕ) (st : State) : Option State :=
  let (st, _, initramfsNode) := lookupPath st 0 initramfsPath
  initramfsInitAt beyond cpioAddr rounds st initramfsNode

def makeDevices (st : State) : Option State := do
  let st := (vfsMkdir st 0 (some devPath)).1
  let (st, _) ← vfsMknod st 0 (some devUartPath) (some .uart)
  let (st, _) ← vfsMknod st 0 (some devFramebufferPath) (some .framebuffer)
  some st

/-- `vfs_init`, with at most `rounds` headers of the archive read. -/
def vfsInit (beyond : ℕ → Beyond) (cpioAddr rounds : ℕ) (st : State) : Option State := do
  let st ← makeInitramfs st
  let st ← fillInitramfs beyond cpioAddr rounds (vfsMount st 0 (some initramfsPath) (some initramfsName)).1
  makeDevices st

structure Unmounted (st : State) (T : Set ℕ) : Prop where
  tree : Tree st T
  hierarchy : Hierarchy st T
  none : ∀ w ∈ T, (st.vnodes w).mount = 0

theorem Unmounted.cross (h : Unmounted st T) (hw : w ∈ T) : cross st w = w :=
  if_neg (not_not.2 (h.none w hw))

theorem initramfsPath_nul : (0 : UInt8) ∉ initramfsPath := by decide

theorem makeInitramfs_unmounted (hb : Boot st) (heq : makeInitramfs st = some st') :
    ∃ T, Unmounted st' T ∧ KeepsBlocks st st' := by
  obtain ⟨st₁, hroot, hreg⟩ := Option.bind_eq_some_iff.1 heq
  obtain ⟨r, htree, hhier, -, hmount, hlive, hmem, -⟩ := mountRoot_tree hb hroot
  have hkeep := KeepsBlocks.of_mem hlive hmem
  have hmade : ∃ T, Unmounted (vfsMkdir st₁ 0 (some initramfsPath)).1 T ∧
      KeepsBlocks st (vfsMkdir st₁ 0 (some initramfsPath)).1 := by
    rcases vfsMkdir_cases htree (Or.inl rfl) initramfsPath_nul with
      ⟨st₂, x, heq₂, -, hext⟩ | ⟨st₂, dir, v, heq₂, hdir, -, -, hc⟩
    · rw [heq₂]
      have hg := Grows.extend htree hext
      refine ⟨{r}, ⟨hg.tree, hg.mounts.hierarchy hhier, fun w hw => ?_⟩, hkeep.trans hext.keepsBlocks⟩
      rw [hext.vnode _ (htree.vnode w hw), Set.mem_singleton_iff.1 hw]
      exact hmount
    · rw [heq₂]
      have hf := hc.frame htree hdir
      have hg := Grows.created htree hdir hc
      refine ⟨_, ⟨hg.tree, hg.mounts.hierarchy hhier, fun w hw => ?_⟩,
        hkeep.trans (hc.keeps htree hdir).blocks⟩
      rcases hw with rfl | hw
      · rw [hf.new.1, Set.mem_singleton_iff.1 hdir]
        exact hmount
      · rw [hf.vnode w hw, Set.mem_singleton_iff.1 hw]
        exact hmount
  obtain ⟨T, hT, hkeep'⟩ := hmade
  have hg := registerBackend_grows hT.tree hreg
  obtain ⟨hsame, hlive', hmem'⟩ := registerBackend_keeps hT.tree.heap hreg
  refine ⟨T, ⟨hg.tree, hg.mounts.hierarchy hT.hierarchy, fun w hw => ?_⟩,
    hkeep'.trans (KeepsBlocks.of_mem hlive' hmem')⟩
  rw [hsame.vnodes]
  exact hT.none w hw

/-- The path leads to a child of the root. -/
theorem Unmounted.resolve_initramfs (h : Unmounted st T) (hres : resolvePath st 0 initramfsPath = .ok d) :
    (st.internal st.root).type = .directory ∧ findChild st (st.internal st.root) initramfsName = some d := by
  have habs : ¬ (¬ isAbsolute initramfsPath = true ∧ (0 : ℕ) = 0) := by decide
  have hcomp : components initramfsPath = [initramfsName] := by decide
  rw [resolvePath, if_neg habs, startVnode, if_pos (by decide), hcomp, resolve_cons, walkComponent,
    if_neg (by decide), if_neg (by decide), h.tree.walkDown_eq h.tree.root, h.cross h.tree.root] at hres
  by_cases htype : (st.internal st.root).type ≠ .directory
  · rw [if_pos htype] at hres
    cases hres
  · rw [if_neg htype] at hres
    refine ⟨not_not.1 htype, ?_⟩
    cases hfind : findChild st (st.internal st.root) initramfsName with
    | none =>
        rw [hfind] at hres
        cases hres
    | some c =>
        rw [hfind] at hres
        have hc := h.tree.findChild_mem h.tree.root hfind
        rw [← Except.ok.inj hres]
        exact congrArg some (h.cross hc).symm

theorem Hierarchy.child_ne (h : Hierarchy st T) (ht : Tree st T) (hw : w ∈ T)
    (hfind : findChild st (st.internal w) t = some d) : d ≠ st.root := by
  rw [findChild_childList] at hfind
  obtain ⟨i, hi, rfl⟩ := childList_at (List.mem_of_find?_eq_some hfind)
  intro heq
  have hplain := (h.child w hw i hi).2
  rw [heq, ht.rootMount.2] at hplain
  cases hplain

/-- Mounting makes an empty file system that the path leads to. -/
theorem Unmounted.mount (h : Unmounted st T) (hclear : ClearNode st (mountNode st initramfsPath))
    (hok : (vfsMount st 0 (some initramfsPath) (some initramfsName)).2 = 0) :
    ∃ T' d r, SoleMount (vfsMount st 0 (some initramfsPath) (some initramfsName)).1 T' d r ∧ r ∈ T' ∧
      ((vfsMount st 0 (some initramfsPath) (some initramfsName)).1.internal r).numChildren = 0 ∧
      KeepsBlocks st (vfsMount st 0 (some initramfsPath) (some initramfsName)).1 := by
  rcases vfsMount_cases h.tree (Or.inl rfl) initramfsPath_nul (fun _ _ _ _ => hclear) with
    ⟨st', x, heq, hx, -⟩ | ⟨st', d, m, r, n, fs, ops, heq, -, -, hres, hmount, hplain, hm0, hm⟩
  · rw [heq] at hok
    exact absurd hok hx.ne
  rw [heq]
  obtain ⟨htype, hfind⟩ := h.resolve_initramfs hres
  have hd := h.tree.findChild_mem h.tree.root hfind
  have hf := hm.frame h.tree hd
  have hg := hm.grows h.tree hd (h.hierarchy.child_ne h.tree h.tree.root hfind) hmount hplain
  refine ⟨_, d, r, ⟨hg.tree, hg.mounts.hierarchy h.hierarchy, ?_, ?_, ?_, fun w hw hne => ?_⟩,
    Set.mem_insert r T, hf.empty, KeepsBlocks.of_mem hf.live hf.mem⟩
  · rw [hf.root, hf.internal _ h.tree.root]
    exact htype
  · rw [hf.root, findChild_congr h.tree h.tree.root hf.internal]
    exact hfind
  · rw [hf.self]
    exact ⟨hm0, hf.mountRoot⟩
  · by_contra hwd
    rcases hw with rfl | hw
    · exact hne hf.new.1
    · rw [hf.vnode w hw hwd] at hne
      exact hne (h.none w hw)

theorem SoleMount.root_ne (h : SoleMount st T d r) : d ≠ st.root :=
  h.hierarchy.child_ne h.tree h.tree.root h.find

/-- The path leads to the root of the file system. -/
theorem SoleMount.resolve_initramfs (h : SoleMount st T d r) {cwd : ℕ} {names : List (List UInt8)}
    {path : List UInt8} (hpath : isAbsolute path = true) (hcomp : components path = initramfsName :: names) :
    resolvePath st cwd path = resolve st r names := by
  have hd := h.tree.findChild_mem h.tree.root h.find
  have hroot : cross st st.root = st.root :=
    if_neg fun hm => h.root_ne (h.only _ h.tree.root hm).symm
  have hcross : cross st d = r := by
    rw [cross, if_pos h.mounted.1]
    exact h.mounted.2
  rw [resolvePath, if_neg fun hrel => hrel.1 hpath, startVnode, if_pos hpath, hcomp, resolve_cons,
    walkComponent, if_neg (by decide), if_neg (by decide), h.tree.walkDown_eq h.tree.root, hroot,
    if_neg (not_not.2 h.directory), h.find]
  change resolve st (cross st d) names = _
  rw [hcross]

theorem SoleMount.d_mem (h : SoleMount st T d r) : d ∈ T := h.tree.findChild_mem h.tree.root h.find

/-- Filling the file system leaves where it is. -/
theorem SoleMount.fill {T' : Set ℕ} (h : SoleMount st T d r) (hg : Grows st st' T T')
    (hf : Filled st' T' r entries vs) (hk : Keeps st st' T r) (hnew : ∀ w ∈ T', w ∈ T ∨ w ∈ vs) :
    Ready st' T' d r entries vs := by
  obtain ⟨hrne, -, hrplain⟩ := h.hierarchy.mountRoot d h.d_mem h.mounted.1
  rw [h.mounted.2] at hrne hrplain
  have hroot : st'.internal st.root = st.internal st.root := hk.internal _ h.tree.root hrne.symm
  have hvd := hk.vnode d h.d_mem
  refine ⟨⟨hg.tree, hg.mounts.hierarchy h.hierarchy, ?_, ?_, ?_, fun w hw hm => ?_⟩, hf⟩
  · rw [hg.root, hroot]
    exact h.directory
  · have hchild : ∀ c ∈ childList st st.root, st'.internal c = st.internal c := by
      intro c hc
      obtain ⟨i, hi, rfl⟩ := childList_at hc
      refine hk.internal _ (h.tree.child _ h.tree.root i hi) fun heq => ?_
      have hplain := (h.hierarchy.child _ h.tree.root i hi).2
      rw [heq, hrplain] at hplain
      cases hplain
    rw [hg.root, hroot, findChild]
    exact (find_name_congr initramfsName fun c hc => by rw [hchild c hc]).trans h.find
  · rw [hvd, (hg.mounts.mount d h.d_mem h.mounted.1).2]
    exact h.mounted
  · rcases hnew w hw with hold | hmem
    · rw [hk.vnode w hold] at hm
      exact h.only w hold hm
    · obtain ⟨e, -, hfile⟩ := hf.fileOf hmem
      exact absurd hfile.mount hm

theorem fillInitramfs_ready (h : SoleMount st T d r) (hr : r ∈ T) (hempty : (st.internal r).numChildren = 0)
    (hplaced : Placed st.mem addr es bs) (hres : Reserved st addr bs.length)
    (hroom : es.length ≤ maxChildren) (hshort : ∀ e ∈ es, e.name.length + 1 < maxFileName)
    (hrounds : es.length < rounds) (heq : fillInitramfs beyond addr rounds st = some st') :
    ∃ T' vs, Ready st' T' d r ((reached beyond addr es).map entryOf) vs ∧ KeepsBlocks st st' := by
  obtain ⟨hext, hsame⟩ := lookupPath_extends h.tree.heap initramfsPath_nul 0
  have htree := (Grows.extend h.tree hext).tree
  have hkeep : KeepsBlocks st (lookupPath st 0 initramfsPath).1 := hext.keepsBlocks
  have hsole := h.sameTree htree hsame
  rw [fillInitramfs] at heq
  have hnode : (lookupPath st 0 initramfsPath).2.2 = r := by
    by_cases hcopy : CopyOk st initramfsPath
    · rw [lookupPath_spec initramfsPath_nul hcopy]
      have hpath : resolvePath st 0 initramfsPath = resolve st r [] :=
        h.resolve_initramfs (by decide) (by decide)
      exact leftoverPath_of_ok hpath
    · simp only [lookupPath_no_copy hcopy, initramfsInitAt, if_pos] at heq
      cases heq
  simp only [hnode] at heq
  have hlen : ∀ e ∈ (reached beyond addr es).map entryOf, e.data.length < 2 ^ 32 := by
    intro x hx
    obtain ⟨e, he, rfl⟩ := List.mem_map.1 hx
    exact hplaced.data_lt ((reached_front beyond addr es).subset he)
  have hempty' : ((lookupPath st 0 initramfsPath).1.internal r).numChildren = 0 := by
    rw [hsame.internal]
    exact hempty
  obtain ⟨hplaced', hres'⟩ := hkeep.placed hplaced hres
  rw [initramfsInitAt_eq hplaced' hres' htree hr hshort (by omega) hrounds] at heq
  obtain ⟨T', vs, hg, hf, hk, hnew⟩ := initramfsInit_filled htree hr hempty' hlen heq
  exact ⟨T', vs, hsole.fill hg hf hk hnew, hkeep.trans hk.blocks⟩

theorem Continues.trans (h : Continues st st₁ d r entries vs)
    (hnext : ∀ T, Ready st₁ T d r entries vs → Continues st₁ st' d r entries vs) :
    Continues st st' d r entries vs := by
  obtain ⟨T₁, h₁, hkeep₁⟩ := h
  obtain ⟨T₂, h₂, hkeep₂⟩ := hnext T₁ h₁
  exact ⟨T₂, h₂, hkeep₁.trans hkeep₂⟩

/-- The paths of the devices, and those of their directories, are outside. -/
theorem Ready.parent_away (h : Ready st T d r entries vs) {path parent : List UInt8} {cwd dir : ℕ}
    (hparent : parentPath path = some parent) (hout : Outside parent)
    (hres : resolveParent st cwd path = .ok dir) : Away d r vs dir := by
  rw [resolveParent, hparent] at hres
  exact (h.away_path hout hres).2

theorem outside_dev : Outside devPath := by decide

theorem makeDevices_ready (h : Ready st T d r entries vs) (heq : makeDevices st = some st') :
    Continues st st' d r entries vs := by
  obtain ⟨⟨st₂, x₂⟩, huart, heq⟩ := Option.bind_eq_some_iff.1 heq
  obtain ⟨⟨st₃, x₃⟩, hfb, heq⟩ := Option.bind_eq_some_iff.1 heq
  obtain rfl := Option.some.inj heq
  have hdir : Continues st (vfsMkdir st 0 (some devPath)).1 d r entries vs := by
    refine h.vfsMkdir (by decide) fun hres _ => h.parent_away (by decide : parentPath devPath = some [slash]) (by decide) hres
  have hdev : Continues st st₂ d r entries vs := hdir.trans fun T₁ h₁ =>
    h₁.vfsMknod (by decide) (by decide)
      (fun hparent _ => h₁.parent_away (by decide : parentPath devUartPath = some devPath) outside_dev hparent)
      (by decide) huart
  exact hdev.trans fun T₂ h₂ => h₂.vfsMknod (by decide) (by decide)
    (fun hparent _ =>
      h₂.parent_away (by decide : parentPath devFramebufferPath = some devPath) outside_dev hparent)
    (by decide) hfb

/-- What `vfs_init` leads to, with the archive still in place. -/
theorem vfsInit_ready (hb : Boot st) (hplaced : Placed st.mem addr es bs) (hres : Reserved st addr bs.length)
    (hroom : es.length ≤ maxChildren) (hshort : ∀ e ∈ es, e.name.length + 1 < maxFileName)
    (hrounds : es.length < rounds) (hmake : makeInitramfs st = some st₁)
    (hclear : ClearNode st₁ (mountNode st₁ initramfsPath))
    (hmount : (vfsMount st₁ 0 (some initramfsPath) (some initramfsName)).2 = 0)
    (heq : vfsInit beyond addr rounds st = some st') :
    ∃ T d r vs, Ready st' T d r ((reached beyond addr es).map entryOf) vs ∧ Placed st'.mem addr es bs := by
  rw [vfsInit, hmake] at heq
  obtain ⟨st₂, hst₂, heq⟩ := Option.bind_eq_some_iff.1 heq
  obtain rfl := Option.some.inj hst₂
  obtain ⟨st₃, hfill, hdevices⟩ := Option.bind_eq_some_iff.1 heq
  obtain ⟨T₁, h₁, hkeep₁⟩ := makeInitramfs_unmounted hb hmake
  obtain ⟨T₂, d, r, h₂, hr, hempty, hkeep₂⟩ := h₁.mount hclear hmount
  obtain ⟨hplaced₂, hres₂⟩ := (hkeep₁.trans hkeep₂).placed hplaced hres
  obtain ⟨T₃, vs, h₃, hkeep₃⟩ := fillInitramfs_ready h₂ hr hempty hplaced₂ hres₂ hroom hshort hrounds hfill
  obtain ⟨hplaced₃, hres₃⟩ := hkeep₃.placed hplaced₂ hres₂
  obtain ⟨T₄, h₄, hkeep₄⟩ := makeDevices_ready h₃ hdevices
  exact ⟨T₄, d, r, vs, h₄, (hkeep₄.placed hplaced₃ hres₃).1⟩

theorem components_initramfs (hslash : slash ∉ t) (ht : t ≠ []) :
    components (initramfsPath ++ slash :: t) = [initramfsName, t] := by
  have hfirst : components initramfsPath = [initramfsName] := by decide
  have hlast : components t = [t] := CStrings.tokens_of_not_mem hslash ht
  rw [components_append, hfirst, hlast]
  rfl

/-- A lookup below the initramfs finds the file of the first entry with the name. -/
theorem Ready.resolve_name (h : Ready st T d r entries vs) (ht : t ≠ []) (hslash : slash ∉ t)
    (hdot : t ≠ dotName) (hdotDot : t ≠ dotDotName) (cwd : ℕ) :
    (entries.find? (fun e => e.name = t) = none ∧
      resolvePath st cwd (initramfsPath ++ slash :: t) = .error enoent) ∨
    ∃ e v, entries.find? (fun e => e.name = t) = some e ∧ v ∈ T ∧ FileOf st r v e ∧
      resolvePath st cwd (initramfsPath ++ slash :: t) = .ok v := by
  obtain ⟨-, hmount, -⟩ := h.hierarchy.mountRoot d h.d_mem h.mounted.1
  rw [h.mounted.2] at hmount
  have hcross : cross st r = r := if_neg (not_not.2 hmount)
  have hres : resolvePath st cwd (initramfsPath ++ slash :: t) = resolve st r [t] :=
    h.resolve_initramfs rfl (components_initramfs hslash ht)
  rw [hres, resolve_cons, walkComponent, if_neg hdot, if_neg hdotDot, h.tree.walkDown_eq h.filled.dir, hcross,
    if_neg (not_not.2 h.filled.type)]
  rcases h.filled.findChild t with ⟨hnone, hfind⟩ | ⟨e, v, hsome, hfind, hv, hfile⟩
  · rw [hfind]
    exact Or.inl ⟨hnone, rfl⟩
  · rw [hfind]
    refine Or.inr ⟨e, v, hsome, (h.filled.mem v hv).1, hfile, ?_⟩
    exact congrArg Except.ok (if_neg (not_not.2 hfile.mount))

/-- A handle opened on a file is at its beginning. -/
theorem Ready.opened (h : Ready st T d r entries vs) {e : Entry} (hv : v ∈ T) (hfile : FileOf st r v e)
    {flags : BitVec 32} {file : ℕ} (heq : vfsOpenVnode st flags v = some (st', 0, file)) :
    (st'.files file).fOps = some .initramfs ∧ Reads st' (ByteArrays.opened e.data) file v r e 0 := by
  obtain ⟨ops, hops, ⟨st₂, y, bs, heq₂, hy, -, -⟩ | ⟨st₂, f, bs, heq₂, hopens, hhandle, -⟩⟩ :=
    vfsOpenVnode_cases h.tree hv flags
  all_goals
    rw [heq₂] at heq
    obtain ⟨rfl, hx, rfl⟩ := by simpa only [Option.some.injEq, Prod.mk.injEq] using heq
  · exact absurd hx hy.ne
  rw [hfile.fOps] at hops
  obtain rfl := Option.some.inj hops
  have hext := hopens.extend
  have hlive : (f, sizeofFile) ∈ st₂.heap.live := by
    rw [hext.live]
    exact List.mem_cons_self ..
  have hvnode : (st₂.files f).vnode = v := by rw [hhandle]
  refine ⟨by rw [hhandle], ⟨?_, hvnode, ⟨by rw [hhandle], by decide⟩, ?_, fun _ => rfl, 0, rfl⟩⟩
  · have hnode := h.tree.node v hv
    rw [State.badFile, hvnode, hopens.same.vnodes]
    rintro (h0 | h0 | h0)
    · exact (hext.ok.start_pos _ hlive).ne' h0
    · exact h.tree.ne_zero hv h0
    · exact (h.tree.heap.start_pos _ hnode).ne' h0
  · exact hfile.keeps (hext.keeps h.tree 0) hv (h.tree.ne_zero hv)

/-- A lookup below `/initramfs` finds the name if the archive has it, and reading from what it finds delivers
the data that the functions on the archive find. The copy of the path takes memory. -/
structure AgreesOn (st : State) (addr rounds : ℕ) (es : List Newc.Entry) (bs : List UInt8) (cwd : ℕ)
    (t : List UInt8) : Prop where
  found : (lookupPath st cwd (initramfsPath ++ slash :: t)).2.1 = 0 ↔
    CopyOk st (initramfsPath ++ slash :: t) ∧ ∃ e ∈ es, e.name = t
  reads : (lookupPath st cwd (initramfsPath ++ slash :: t)).2.1 = 0 →
    ∃ e pos, es.find? (fun e => e.name = t) = some e ∧ Newc.DataAt t es bs pos e.data ∧
      Cpio.Finds st.mem addr rounds t e pos ∧
      ∀ flags target st' file,
        vfsOpen st cwd (some (initramfsPath ++ slash :: t)) flags target = some (st', 0, file) →
          (st'.files file).fOps = some .initramfs ∧ ∀ as : List Access, (∀ a ∈ as, a.Fits) →
            initramfsAccesses st' file as = slices (ByteArrays.opened e.data) file as

theorem lookup_zero_iff (hpath : (0 : UInt8) ∉ bs) (cwd : ℕ) :
    (lookupPath st cwd bs).2.1 = 0 ↔ CopyOk st bs ∧ ∃ v, resolvePath st cwd bs = .ok v := by
  by_cases hcopy : CopyOk st bs
  · rw [lookupPath_spec hpath hcopy]
    cases hr : resolvePath st cwd bs with
    | error c =>
        refine iff_of_false (resolvePath_error hr).ne ?_
        rintro ⟨-, v, hv⟩
        cases hv
    | ok v => exact iff_of_true rfl ⟨hcopy, v, rfl⟩
  · rw [lookupPath_no_copy hcopy]
    exact iff_of_false (by decide : enomem ≠ 0) fun hc => hcopy hc.1

/-- After `vfs_init` the file system and the functions on the archive agree on a name if and only if, where
the archive has it, `initramfs_init` has come to an entry with it before the bytes behind its magic arrays
end the loop. -/
theorem initramfs_agrees_iff (hb : Boot st) (hplaced : Placed st.mem addr es bs)
    (hres : Reserved st addr bs.length) (hroom : es.length ≤ maxChildren)
    (hshort : ∀ e ∈ es, e.name.length + 1 < maxFileName) (hrounds : es.length < rounds)
    (hmake : makeInitramfs st = some st₁) (hclear : ClearNode st₁ (mountNode st₁ initramfsPath))
    (hmount : (vfsMount st₁ 0 (some initramfsPath) (some initramfsName)).2 = 0)
    (heq : vfsInit beyond addr rounds st = some st') (cwd : ℕ) (t : List UInt8) (ht : t ≠ [])
    (hslash : slash ∉ t) (hnul : (0 : UInt8) ∉ t) (hdot : t ≠ dotName) (hdotDot : t ≠ dotDotName) :
    AgreesOn st' addr rounds es bs cwd t ↔
      (CopyOk st' (initramfsPath ++ slash :: t) → (∃ e ∈ es, e.name = t) →
        ∃ e ∈ reached beyond addr es, e.name = t) := by
  obtain ⟨T, d, r, vs, h, hplaced'⟩ :=
    vfsInit_ready hb hplaced hres hroom hshort hrounds hmake hclear hmount heq
  have hpath : (0 : UInt8) ∉ initramfsPath ++ slash :: t := by
    rw [List.mem_append, List.mem_cons, not_or, not_or]
    exact ⟨initramfsPath_nul, by decide, hnul⟩
  have hfindMap : ((reached beyond addr es).map entryOf).find? (fun e => e.name = t) =
      ((reached beyond addr es).find? fun e => e.name = t).map entryOf := by
    rw [List.find?_map]
    rfl
  have hlook : (lookupPath st' cwd (initramfsPath ++ slash :: t)).2.1 = 0 ↔ _ :=
    lookup_zero_iff hpath cwd
  rcases h.resolve_name ht hslash hdot hdotDot cwd with ⟨hnone, herr⟩ | ⟨x, v, hsome, hv, hfile, hok⟩
  · rw [hfindMap, Option.map_eq_none_iff] at hnone
    have habsent : ¬ ∃ e ∈ reached beyond addr es, e.name = t := by
      rintro ⟨e, he, hname⟩
      have hne := List.find?_eq_none.1 hnone e he
      simp [hname] at hne
    have hmissing : ¬ (lookupPath st' cwd (initramfsPath ++ slash :: t)).2.1 = 0 := by
      rw [hlook]
      rintro ⟨-, v, hv⟩
      rw [herr] at hv
      cases hv
    constructor
    · exact fun hlaw hcopy he => absurd (hlaw.found.2 ⟨hcopy, he⟩) hmissing
    · exact fun hreach => ⟨iff_of_false hmissing fun hc => habsent (hreach hc.1 hc.2),
        fun hc => absurd hc hmissing⟩
  · rw [hfindMap] at hsome
    obtain ⟨e, hfind, rfl⟩ := Option.map_eq_some_iff.1 hsome
    have hname : e.name = t := by simpa using List.find?_some hfind
    have hmem := List.mem_of_find?_eq_some hfind
    have he : es.find? (fun e => e.name = t) = some e := by
      obtain ⟨rest, hrest⟩ := reached_front beyond addr es
      rw [← hrest, List.find?_append, hfind, Option.some_or]
    refine iff_of_true ⟨?_, fun hc => ?_⟩ fun _ _ => ⟨e, hmem, hname⟩
    · rw [hlook]
      exact and_congr_right fun _ => iff_of_true ⟨v, hok⟩ ⟨e, List.mem_of_find?_eq_some he, hname⟩
    obtain ⟨pos, hdata, hfinds⟩ := hplaced'.finds hnul hrounds he
    refine ⟨e, pos, he, hdata, hfinds, fun flags target st'' file hopen => ?_⟩
    rw [vfsOpen_found ((lookupFinds_iff hpath).2 ⟨(hlook.1 hc).1, hok⟩)] at hopen
    have hafter := h.extend (afterFind_extends h.tree hpath cwd).1
    have hfile' : FileOf (afterFind st' cwd (initramfsPath ++ slash :: t)) r v (entryOf e) :=
      hfile.keeps ((afterFind_extends h.tree hpath cwd).1.keeps h.tree 0) hv (h.tree.ne_zero hv)
    obtain ⟨hops, hreads⟩ := hafter.opened hv hfile' hopen
    exact ⟨hops, fun as has => hreads.accesses has⟩

/-- Clear memory but for the `n` bytes at `a` of `mem`, which are in use. -/
def State.holding (mem : ByteMem) (a n : ℕ) : State :=
  { State.blank with heap := ⟨[(a, n)], fun k => 4096 * (k + 1), 0⟩, mem := mem }

theorem State.holding_boot (mem : ByteMem) {a n : ℕ} (ha : 0 < a) (hn : 0 < n) :
    Boot (State.holding mem a n) := by
  refine ⟨⟨List.pairwise_singleton .., fun b hb => ?_, fun b hb => ?_⟩, rfl⟩
  · rw [List.mem_singleton.1 hb]
    exact hn
  · rw [List.mem_singleton.1 hb]
    exact ha

theorem State.holding_reserved (mem : ByteMem) (a n : ℕ) : Reserved (State.holding mem a n) a n :=
  ⟨(a, n), List.mem_singleton.2 rfl, le_rfl, le_rfl⟩

theorem State.holding_mem (mem : ByteMem) (a n : ℕ) : (State.holding mem a n).mem = mem := rfl

def State.withArchive : State :=
  State.holding Cpio.twoFiles 134217728 (Newc.encode true Cpio.twoEntries).length

theorem State.withArchive_makes : (makeInitramfs State.withArchive).isSome := by decide

def State.withInitramfs : State := (makeInitramfs State.withArchive).get State.withArchive_makes

theorem State.withInitramfs_mounts :
    ClearNode State.withInitramfs (mountNode State.withInitramfs initramfsPath) ∧
      (vfsMount State.withInitramfs 0 (some initramfsPath) (some initramfsName)).2 = 0 := by decide

theorem State.withArchive_boot : Boot State.withArchive :=
  State.holding_boot _ (by decide) (by decide +kernel : 0 < (Newc.encode true Cpio.twoEntries).length)

theorem State.withArchive_placed : Placed State.withArchive.mem 134217728 Cpio.twoEntries
    (Newc.encode true Cpio.twoEntries) := by
  rw [State.withArchive, State.holding_mem]
  exact Cpio.twoFiles_placed

theorem State.withArchive_starts : (vfsInit terminated 134217728 3 State.withArchive).isSome := by
  decide +kernel

def State.started : State := (vfsInit terminated 134217728 3 State.withArchive).get State.withArchive_starts

theorem State.started_copies : CopyOk State.started (initramfsPath ++ slash :: [97]) := by decide +kernel

/-- With a NUL byte behind both arrays, the file `a` of the archive is found and read. -/
theorem initramfs_agrees_twoFiles :
    (lookupPath State.started 0 (initramfsPath ++ slash :: [97])).2.1 = 0 ∧
      AgreesOn State.started 134217728 3 Cpio.twoEntries (Newc.encode true Cpio.twoEntries) 0 [97] := by
  have hmake : makeInitramfs State.withArchive = some State.withInitramfs :=
    (Option.some_get State.withArchive_makes).symm
  have hstart : vfsInit terminated 134217728 3 State.withArchive = some State.started :=
    (Option.some_get State.withArchive_starts).symm
  have hreach : reached terminated 134217728 Cpio.twoEntries = Cpio.twoEntries := rfl
  have hlaw := (initramfs_agrees_iff State.withArchive_boot State.withArchive_placed
    (State.holding_reserved ..) (by decide) (by decide) (by decide : Cpio.twoEntries.length < 3) hmake
    State.withInitramfs_mounts.1 State.withInitramfs_mounts.2 hstart 0 [97] (by decide) (by decide)
    (by decide) (by decide) (by decide)).2 fun _ he => hreach.symm ▸ he
  exact ⟨hlaw.found.2 ⟨State.started_copies, by decide⟩, hlaw⟩

/-- The byte behind `magic` is not the one behind `header_magic`. -/
def apart : ℕ → Beyond := fun _ => ⟨[1], [0]⟩

theorem State.withArchive_startsApart : (vfsInit apart 134217728 3 State.withArchive).isSome := by
  decide +kernel

def State.startedApart : State :=
  (vfsInit apart 134217728 3 State.withArchive).get State.withArchive_startsApart

/-- Then the first header is rejected, and the file `a` of the archive is not found. -/
theorem archive_rejected : ¬ ∀ (st st₁ st' : State) (beyond : ℕ → Beyond) (addr rounds : ℕ)
    (es : List Newc.Entry) (bs : List UInt8), Boot st → Placed st.mem addr es bs →
      Reserved st addr bs.length → es.length ≤ maxChildren →
      (∀ e ∈ es, e.name.length + 1 < maxFileName) → es.length < rounds → makeInitramfs st = some st₁ →
      ClearNode st₁ (mountNode st₁ initramfsPath) →
      (vfsMount st₁ 0 (some initramfsPath) (some initramfsName)).2 = 0 →
      vfsInit beyond addr rounds st = some st' → ∀ cwd t, t ≠ [] → slash ∉ t → (0 : UInt8) ∉ t →
        t ≠ dotName → t ≠ dotDotName → AgreesOn st' addr rounds es bs cwd t := by
  intro hall
  have hmake : makeInitramfs State.withArchive = some State.withInitramfs :=
    (Option.some_get State.withArchive_makes).symm
  have hstart : vfsInit apart 134217728 3 State.withArchive = some State.startedApart :=
    (Option.some_get State.withArchive_startsApart).symm
  have hlaw := hall State.withArchive _ _ _ 134217728 3 Cpio.twoEntries (Newc.encode true Cpio.twoEntries)
    State.withArchive_boot State.withArchive_placed (State.holding_reserved ..) (by decide) (by decide)
    (by decide) hmake State.withInitramfs_mounts.1 State.withInitramfs_mounts.2 hstart 0 [97] (by decide)
    (by decide) (by decide) (by decide) (by decide)
  have hcopy : CopyOk State.startedApart (initramfsPath ++ slash :: [97]) := by decide +kernel
  have hmissing : (lookupPath State.startedApart 0 (initramfsPath ++ slash :: [97])).2.1 = enoent := by
    decide +kernel
  exact absurd (hmissing.symm.trans (hlaw.found.2 ⟨hcopy, by decide⟩)) (by decide)

end OscKernel.Vfs
