import OscKernel.Devicetree

/-!
# The callback that looks for the archive

`initramfs_callback` of `devicetree.c` compares the name that it is given, whatever the kind of the event.
The end of a node has no name, and every tree has such an end.
-/

namespace OscKernel.Fdt

open ByteMem FlatTree

variable {m : ByteMem} {bs : List UInt8} {rounds : ℕ}

def initrdStart : List UInt8 :=
  [108, 105, 110, 117, 120, 44, 105, 110, 105, 116, 114, 100, 45, 115, 116, 97, 114, 116]
def initrdEnd : List UInt8 := [108, 105, 110, 117, 120, 44, 105, 110, 105, 116, 114, 100, 45, 101, 110, 100]

structure Initrd where
  cpioAddr : BitVec 32
  cpioEnd : BitVec 32
  deriving DecidableEq, Repr

def initramfsCallback (m : ByteMem) (rounds : ℕ) (v : Initrd) (c : Call) : Option (Initrd × ℤ) :=
  if c.name = 0 then none
  else
    let name := CStrings.str m rounds c.name
    if Cpio.strcmp name initrdStart = 0 then
      if c.data = 0 then none else some ({ v with cpioAddr := be2leU32 (load32 m c.data) }, 0)
    else if Cpio.strcmp name initrdEnd = 0 then
      if c.data = 0 then none else some ({ v with cpioEnd := be2leU32 (load32 m c.data) }, 0)
    else some (v, 0)

def initramfsCalls (m : ByteMem) (rounds : ℕ) (v : Initrd) (calls : List Call) : Option Initrd :=
  calls.foldlM (fun v c => (initramfsCallback m rounds v c).map Prod.fst) v

def fdtTraverseInitramfs (m : ByteMem) (g : Globals) (rounds : ℕ) (v : Initrd) : Option (ℤ × Initrd) :=
  (fdtTraverse m g (some fun _ => 0) rounds).bind fun r =>
    (initramfsCalls m rounds v r.calls).map fun v => (r.ret, v)

def lastValue (name : List UInt8) (old : BitVec 32) (es : List Event) : BitVec 32 :=
  es.foldl
    (fun v e =>
      match e with
      | .prop q => if q.name = name then BitVec.ofNat 32 (ByteOrder.value q.value.reverse) else v
      | _ => v)
    old

/-- The traversal uses no null pointer, returns `0` and leaves the values of the last properties. -/
def InitrdFound (m : ByteMem) (g : Globals) (rounds : ℕ) (v : Initrd) (t : Tree) : Prop :=
  fdtTraverseInitramfs m g rounds v =
    some (0, ⟨lastValue initrdStart v.cpioAddr t.events, lastValue initrdEnd v.cpioEnd t.events⟩)

/-- A value of four bytes is read as it is. -/
theorem load_value {p : ℕ} {l : List UInt8} (h : m.Has p l) (hlen : l.length = 4) :
    be2leU32 (load32 m p) = BitVec.ofNat 32 (ByteOrder.value l.reverse) := by
  have hback := ByteOrder.bytes_value l.reverse
  have hlt := ByteOrder.value_lt l.reverse
  rw [List.length_reverse, hlen] at hback hlt
  have hl : l = be32 (ByteOrder.value l.reverse) := by rw [be32, hback, List.reverse_reverse]
  rw [hl] at h
  exact be2leU32_load h hlt

/-- What the callback does with a property, and with the begin of a node. -/
theorem initramfsCallback_named {c : Call} {name : List UInt8} (hc : c.name ≠ 0)
    (hname : CStrings.Holds m c.name name) (hlen : name.length ≤ rounds) (v : Initrd) :
    initramfsCallback m rounds v c =
      if name = initrdStart then
        if c.data = 0 then none else some ({ v with cpioAddr := be2leU32 (load32 m c.data) }, 0)
      else if name = initrdEnd then
        if c.data = 0 then none else some ({ v with cpioEnd := be2leU32 (load32 m c.data) }, 0)
      else some (v, 0) := by
  have hstart := Cpio.strcmp_eq_zero hname.1 (show (0 : UInt8) ∉ initrdStart by decide)
  have hend := Cpio.strcmp_eq_zero hname.1 (show (0 : UInt8) ∉ initrdEnd by decide)
  rw [initramfsCallback, if_neg hc, CStrings.str_holds hname hlen]
  simp only [hstart, hend]

/-- An event that the callback can handle: a property, of four bytes if it is one of the two, or the begin
of a node with another name. -/
def Handled (rounds : ℕ) : Event → Prop
  | .beginNode name => name ≠ initrdStart ∧ name ≠ initrdEnd ∧ name.length ≤ rounds
  | .prop q => (q.name = initrdStart ∨ q.name = initrdEnd → q.value.length = 4) ∧ q.name.length ≤ rounds
  | .endNode => False

theorem initramfsCallback_event {c : Call} {e : Event} (h : Delivers m c e) (he : Handled rounds e)
    (hname : c.name ≠ 0) (hdata : c.type = fdtProp → c.data ≠ 0) (v : Initrd) :
    initramfsCallback m rounds v c =
      some (⟨lastValue initrdStart v.cpioAddr [e], lastValue initrdEnd v.cpioEnd [e]⟩, 0) := by
  cases e with
  | beginNode name =>
      rw [initramfsCallback_named hname h.2.1 he.2.2, if_neg he.1, if_neg he.2.1]
      rfl
  | prop q =>
      obtain ⟨htype, hholds, hhas, -, -⟩ := h
      have hne : initrdStart ≠ initrdEnd := by decide
      rw [initramfsCallback_named hname hholds he.2]
      simp only [lastValue, List.foldl_cons, List.foldl_nil, if_neg (hdata htype)]
      by_cases hstart : q.name = initrdStart
      · rw [if_pos hstart, if_pos hstart, if_neg (fun hend => hne (hstart.symm.trans hend)),
          load_value hhas (he.1 (Or.inl hstart))]
      · by_cases hend : q.name = initrdEnd
        · rw [if_neg hstart, if_neg hstart, if_pos hend, if_pos hend, load_value hhas (he.1 (Or.inr hend))]
        · rw [if_neg hstart, if_neg hstart, if_neg hend, if_neg hend]
  | endNode => exact he.elim

/-- In front of the first end of a node the callback takes the values of the last properties. -/
theorem initramfsCalls_values {cs : List Call} {es : List Event} (h : List.Forall₂ (Delivers m) cs es)
    (hes : ∀ e ∈ es, Handled rounds e) (hname : ∀ c ∈ cs, c.name ≠ 0)
    (hdata : ∀ c ∈ cs, c.type = fdtProp → c.data ≠ 0) (v : Initrd) :
    initramfsCalls m rounds v cs =
      some ⟨lastValue initrdStart v.cpioAddr es, lastValue initrdEnd v.cpioEnd es⟩ := by
  induction h generalizing v with
  | nil => rfl
  | @cons c e cs es hc _ ih =>
      have hfirst := initramfsCallback_event hc (hes e List.mem_cons_self) (hname c List.mem_cons_self)
        (hdata c List.mem_cons_self) v
      rw [initramfsCalls, List.foldlM_cons, hfirst]
      exact ih (fun e he => hes e (List.mem_cons_of_mem _ he)) (fun c hc => hname c (List.mem_cons_of_mem _ hc))
        (fun c hc => hdata c (List.mem_cons_of_mem _ hc)) _

/-- The end of a node gives the callback a null name. -/
theorem initramfs_callback_crashes :
    fdtInit sampleMem 256 ⟨0, 0, 0, 0, 0, 0⟩ = (0, sampleGlobals, []) ∧
      sampleTree.StreamedBy sampleStruct ∧ sampleMem.Has sampleGlobals.structure_ sampleStruct ∧
      ¬ InitrdFound sampleMem sampleGlobals 64 ⟨0, 0⟩ sampleTree := by
  have hnone : fdtTraverseInitramfs sampleMem sampleGlobals 64 ⟨0, 0⟩ = none := by decide
  refine ⟨sample_init, sampleTree_streamed, sample_struct, fun hfound => ?_⟩
  rw [InitrdFound, hnone] at hfound
  cases hfound

end OscKernel.Fdt
