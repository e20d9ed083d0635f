import OscKernel.InitramfsInit

/-!
# The stores of `initramfs_init`

The loop of `initramfs_init` with every store that it makes, each with the object that it is meant for. The
archive has memory of its own. The number of children of the root is a signed number that nothing has set
before. Behind a store outside of its object nothing is defined, so there the trace ends.
-/

namespace OscKernel.Vfs

open ByteMem (Has)
open Newc (Member Members Archive)

variable {m : ByteMem} {a addr rounds n data v : ℕ} {bs ms tl l : List UInt8} {e : Newc.Entry}
  {es : List Newc.Entry} {heap : Heap} {count : ℤ} {beyond : ℕ → Beyond}

/-- What a store is meant for: a local array, a part of a structure at an address, a block for data, or a part
of the node of the root. -/
inductive Object where
  | headerMagic
  | filename
  | nodeName (n : ℕ)
  | node (n : ℕ)
  | data (p size : ℕ)
  | vnode (v : ℕ)
  | rootType
  | rootChildren
  | rootNumChildren
  deriving DecidableEq

def Object.size : Object → ℕ
  | .headerMagic => 6
  | .filename => 256
  | .nodeName _ => maxFileName
  | .node _ => sizeofNode
  | .data _ size => size
  | .vnode _ => sizeofVnode
  | .rootChildren => maxChildren
  | .rootType | .rootNumChildren => 4

def Object.pointer : Object → Option ℕ
  | .nodeName p | .node p | .data p _ | .vnode p => some p
  | _ => none

structure Store where
  object : Object
  offset : ℤ
  length : ℕ
  deriving DecidableEq

def Store.Inside (s : Store) : Prop :=
  s.length = 0 ∨ s.object.pointer ≠ some 0 ∧ 0 ≤ s.offset ∧ s.offset + s.length ≤ s.object.size

instance (s : Store) : Decidable s.Inside := inferInstanceAs (Decidable (_ ∨ _ ∧ _ ∧ _))

/-- The fields `type`, `parent`, `size`, `data`, `capacity` and `num_children` of a new node, and the sixteen
elements of `children`. -/
def nodeFields (n : ℕ) : List Store :=
  [⟨.node n, 64, 4⟩, ⟨.node n, 72, 8⟩, ⟨.node n, 88, 8⟩, ⟨.node n, 80, 8⟩, ⟨.node n, 96, 8⟩,
    ⟨.node n, 232, 4⟩] ++ (List.range maxChildren).map fun i => ⟨.node n, 104 + 8 * i, 8⟩

def vnodeFields (v : ℕ) : List Store :=
  [⟨.vnode v, 0, 8⟩, ⟨.vnode v, 8, 8⟩, ⟨.vnode v, 16, 8⟩, ⟨.vnode v, 24, 8⟩, ⟨.vnode v, 32, 8⟩,
    ⟨.vnode v, 40, 4⟩]

def copyStores (nameSize : ℕ) : List Store := [⟨.headerMagic, 0, 6⟩, ⟨.filename, 0, nameSize⟩]

def entryStores (n data v nameSize fileSize : ℕ) (count : ℤ) : List Store :=
  [⟨.nodeName n, 0, nameSize⟩, ⟨.nodeName n, nameSize, 1⟩] ++ nodeFields n ++
    [⟨.data data fileSize, 0, fileSize⟩] ++ vnodeFields v ++
    [⟨.rootNumChildren, 0, 4⟩, ⟨.rootChildren, count, 1⟩]

structure Trace where
  stores : List Store
  numChildren : Option ℤ

def Trace.before (stores : List Store) (t : Trace) : Trace := ⟨stores ++ t.stores, t.numChildren⟩

def initramfsInitTrace (m : ByteMem) (beyond : ℕ → Beyond) : ℕ → ℕ → Heap → ℤ → Trace
  | 0, _, _, _ => ⟨[], none⟩
  | rounds + 1, header, heap, count =>
      if MagicMatches (beyond header) m header then
        let nameSize := Cpio.nameSize m header
        let filename := Cpio.arrayStr (ByteMem.read m (header + Cpio.headerSize) nameSize)
        if ¬ ∀ s ∈ copyStores nameSize, s.Inside then ⟨copyStores nameSize, none⟩
        else if Cpio.strcmp filename Cpio.trailer = 0 then ⟨copyStores nameSize, some count⟩
        else
          let (heap, n) := heap.alloc sizeofNode
          let (heap, data) := heap.alloc (Cpio.fileSize m header)
          let (heap, v) := heap.alloc sizeofVnode
          let stores := copyStores nameSize ++
            entryStores n data v nameSize (Cpio.fileSize m header) count
          if ¬ ∀ s ∈ stores, s.Inside then ⟨stores, none⟩
          else (initramfsInitTrace m beyond rounds (Cpio.nextHeader m header) heap (count + 1)).before stores
      else ⟨[⟨.headerMagic, 0, 6⟩], some count⟩

def initramfsInitStores (m : ByteMem) (beyond : ℕ → Beyond) (cpioAddr rounds : ℕ) (heap : Heap)
    (numChildren : ℤ) : Trace :=
  (initramfsInitTrace m beyond rounds cpioAddr heap numChildren).before [⟨.rootType, 0, 4⟩]

def Trace.stored (t : Trace) : ℕ := t.stores.countP fun s => s.object = .rootChildren

/-- Every store lies inside of its object, and the number of children is the number of those stored. -/
structure Trace.Safe (t : Trace) : Prop where
  inside : ∀ s ∈ t.stores, s.Inside
  counted : t.numChildren = some (t.stored : ℤ)

/-- `alloc` has blocks for the node, the data and the vnode of every entry. -/
def Room : Heap → List Newc.Entry → Prop
  | _, [] => True
  | heap, e :: es =>
      (heap.alloc sizeofNode).2 ≠ 0 ∧
        (e.data = [] ∨ ((heap.alloc sizeofNode).1.alloc e.data.length).2 ≠ 0) ∧
        (((heap.alloc sizeofNode).1.alloc e.data.length).1.alloc sizeofVnode).2 ≠ 0 ∧
        Room (((heap.alloc sizeofNode).1.alloc e.data.length).1.alloc sizeofVnode).1 es

/-- The root has no children yet and gets at most sixteen, every name has room with two terminators, and there
is memory for the entries. -/
structure FitsRoot (heap : Heap) (count : ℤ) (es : List Newc.Entry) : Prop where
  empty : count = 0
  children : es.length ≤ maxChildren
  names : ∀ e ∈ es, e.name.length + 2 ≤ maxFileName
  room : Room heap es

theorem copyStores_inside (k : ℕ) : (∀ s ∈ copyStores k, s.Inside) ↔ k ≤ 256 := by
  simp only [copyStores, List.forall_mem_cons, List.not_mem_nil, false_implies, implies_true, and_true,
    Store.Inside, Object.pointer, Object.size]
  simp
  omega

theorem nodeFields_inside (hn : n ≠ 0) : ∀ s ∈ nodeFields n, s.Inside := by
  have hpointer : (Object.node n).pointer ≠ some 0 := fun h => hn (Option.some.inj h)
  have hsize : (Object.node n).size = 240 := rfl
  intro s hs
  rcases List.mem_append.1 hs with hs | hs
  · simp only [List.mem_cons, List.not_mem_nil, or_false] at hs
    rcases hs with rfl | rfl | rfl | rfl | rfl | rfl <;> refine Or.inr ⟨hpointer, ?_, ?_⟩ <;>
      norm_num [hsize]
  · obtain ⟨i, hi, rfl⟩ := List.mem_map.1 hs
    have hi16 : i < 16 := List.mem_range.1 hi
    refine Or.inr ⟨hpointer, by positivity, ?_⟩
    rw [hsize]
    push_cast
    omega

theorem vnodeFields_inside (hv : v ≠ 0) : ∀ s ∈ vnodeFields v, s.Inside := by
  have hpointer : (Object.vnode v).pointer ≠ some 0 := fun h => hv (Option.some.inj h)
  have hsize : (Object.vnode v).size = 48 := rfl
  intro s hs
  simp only [vnodeFields, List.mem_cons, List.not_mem_nil, or_false] at hs
  rcases hs with rfl | rfl | rfl | rfl | rfl | rfl <;> refine Or.inr ⟨hpointer, ?_, ?_⟩ <;>
    norm_num [hsize]

theorem entryStores_inside (n data v k size : ℕ) (count : ℤ) :
    (∀ s ∈ entryStores n data v k size count, s.Inside) ↔
      n ≠ 0 ∧ k + 1 ≤ maxFileName ∧ (size = 0 ∨ data ≠ 0) ∧ v ≠ 0 ∧ 0 ≤ count ∧ count < maxChildren := by
  have hmem : ∀ s, s ∈ entryStores n data v k size count ↔
      s = ⟨.nodeName n, 0, k⟩ ∨ s = ⟨.nodeName n, k, 1⟩ ∨ s ∈ nodeFields n ∨
        s = ⟨.data data size, 0, size⟩ ∨ s ∈ vnodeFields v ∨ s = ⟨.rootNumChildren, 0, 4⟩ ∨
          s = ⟨.rootChildren, count, 1⟩ := by
    intro s
    simp only [entryStores, List.mem_append, List.mem_cons, List.not_mem_nil, or_false, or_assoc]
  constructor
  · intro h
    have hname := h _ ((hmem _).2 (Or.inr (Or.inl rfl)))
    have hdata := h _ ((hmem _).2 (Or.inr (Or.inr (Or.inr (Or.inl rfl)))))
    have hvnode := h ⟨.vnode v, 0, 8⟩ ((hmem _).2 (by simp [vnodeFields]))
    have hchild := h _ ((hmem _).2 (Or.inr (Or.inr (Or.inr (Or.inr (Or.inr (Or.inr rfl)))))))
    simp only [Store.Inside, Object.pointer, Object.size, ne_eq, Option.some.injEq, one_ne_zero,
      false_or] at hname hdata hvnode hchild
    obtain ⟨hn, -, hk⟩ := hname
    refine ⟨hn, by exact_mod_cast hk, hdata.imp_right And.left, ?_, hchild.2.1, ?_⟩
    · exact (hvnode.resolve_left (by decide)).1
    · have := hchild.2.2
      push_cast at this
      omega
  · rintro ⟨hn, hk, hdata, hv, hpos, hroom⟩ s hs
    rcases (hmem s).1 hs with rfl | rfl | hs | rfl | hs | rfl | rfl
    · exact Or.inr ⟨fun h => hn (Option.some.inj h), le_rfl, by
        change (0 : ℤ) + k ≤ (maxFileName : ℕ)
        omega⟩
    · exact Or.inr ⟨fun h => hn (Option.some.inj h), Int.natCast_nonneg k, by
        change (k : ℤ) + (1 : ℕ) ≤ (maxFileName : ℕ)
        omega⟩
    · exact nodeFields_inside hn s hs
    · refine hdata.imp id fun hp => ⟨fun h => hp (Option.some.inj h), le_rfl, ?_⟩
      change (0 : ℤ) + size ≤ (size : ℕ)
      omega
    · exact vnodeFields_inside hv s hs
    · exact Or.inr ⟨Option.some_ne_none _ ∘ Eq.symm, le_rfl, by decide⟩
    · refine Or.inr ⟨Option.some_ne_none _ ∘ Eq.symm, hpos, ?_⟩
      change count + (1 : ℕ) ≤ (maxChildren : ℕ)
      omega

/-- Behind the arrays the check fails: nothing but the copy of the magic is stored. -/
theorem trace_stops (hmagic : ByteMem.read m a 6 = Cpio.magic) (hno : ¬ (beyond a).Agree) (rounds : ℕ)
    (heap : Heap) (count : ℤ) :
    initramfsInitTrace m beyond (rounds + 1) a heap count = ⟨[⟨.headerMagic, 0, 6⟩], some count⟩ := by
  rw [initramfsInitTrace, if_neg (mt (magicMatches_iff hmagic).1 hno)]

theorem trace_trailer (h : Member ⟨Newc.trailerName, []⟩ tl) (hat : Has m a tl) (beyond : ℕ → Beyond)
    (rounds : ℕ) (heap : Heap) (count : ℤ) :
    ∃ stores, initramfsInitTrace m beyond (rounds + 1) a heap count = ⟨stores, some count⟩ ∧
      (∀ s ∈ stores, s.Inside) ∧ stores.countP (fun s => s.object = .rootChildren) = 0 := by
  obtain ⟨front, pad, hfront, -, rfl⟩ := h
  obtain ⟨hat, -⟩ := ByteMem.has_append.1 hat
  obtain ⟨hatf, -⟩ := ByteMem.has_append.1 hat
  obtain ⟨hmagic, hns, -, hread⟩ := Cpio.read_fields hfront hatf
  by_cases hagree : (beyond a).Agree
  swap
  · exact ⟨_, trace_stops hmagic hagree rounds heap count, by decide, by decide⟩
  have hns' : Cpio.nameSize m a = 11 := hns
  have hname : Cpio.strcmp (Cpio.arrayStr (ByteMem.read m (a + Cpio.headerSize) (Cpio.nameSize m a)))
      Cpio.trailer = 0 := by
    rw [hread]
    decide
  rw [hns'] at hname
  have hcopies : ∀ s ∈ copyStores 11, s.Inside := (copyStores_inside 11).2 (by decide)
  refine ⟨copyStores 11, ?_, hcopies, by decide⟩
  simp only [initramfsInitTrace, if_pos ((magicMatches_iff hmagic).2 hagree), hns', if_neg (not_not.2 hcopies),
    if_pos hname]

def afterEntry (heap : Heap) (size : ℕ) : Heap :=
  (((heap.alloc sizeofNode).1.alloc size).1.alloc sizeofVnode).1

def roundStores (heap : Heap) (nameSize fileSize : ℕ) (count : ℤ) : List Store :=
  copyStores nameSize ++ entryStores (heap.alloc sizeofNode).2 ((heap.alloc sizeofNode).1.alloc fileSize).2
    (((heap.alloc sizeofNode).1.alloc fileSize).1.alloc sizeofVnode).2 nameSize fileSize count

/-- An entry has room: for its node, its data, its vnode, its name and the child that it becomes. -/
structure EntryFits (heap : Heap) (count : ℤ) (e : Newc.Entry) : Prop where
  node : (heap.alloc sizeofNode).2 ≠ 0
  data : e.data = [] ∨ ((heap.alloc sizeofNode).1.alloc e.data.length).2 ≠ 0
  vnode : (((heap.alloc sizeofNode).1.alloc e.data.length).1.alloc sizeofVnode).2 ≠ 0
  name : e.name.length + 2 ≤ maxFileName
  child : 0 ≤ count ∧ count < maxChildren

theorem roundStores_inside (heap : Heap) (count : ℤ) (e : Newc.Entry) :
    (∀ s ∈ roundStores heap (e.name.length + 1) e.data.length count, s.Inside) ↔
      EntryFits heap count e := by
  have hname : maxFileName = 64 := rfl
  rw [roundStores, List.forall_mem_append, copyStores_inside, entryStores_inside]
  constructor
  · rintro ⟨-, hn, hk, hdata, hv, hchild⟩
    exact ⟨hn, hdata.imp_left List.length_eq_zero_iff.1, hv, hk, hchild⟩
  · rintro ⟨hn, hdata, hv, hk, hchild⟩
    exact ⟨by omega, hn, hk, hdata.imp_left List.length_eq_zero_iff.2, hv, hchild⟩

/-- A round for an entry: its stores are all of the trace, or the trace goes on at the next header. -/
theorem trace_entry (h : Member e l) (hat : Has m a l) (hagree : (beyond a).Agree)
    (hnul : (0 : UInt8) ∉ e.name) (htrailer : e.name ≠ Newc.trailerName) (rounds : ℕ) (heap : Heap)
    (count : ℤ) :
    (EntryFits heap count e ∧ initramfsInitTrace m beyond (rounds + 1) a heap count =
        (initramfsInitTrace m beyond rounds (Cpio.nextHeader m a) (afterEntry heap e.data.length)
          (count + 1)).before (roundStores heap (e.name.length + 1) e.data.length count)) ∨
      ¬ EntryFits heap count e ∧
        ¬ ∀ s ∈ (initramfsInitTrace m beyond (rounds + 1) a heap count).stores, s.Inside := by
  obtain ⟨front, pad, hfront, -, rfl⟩ := h
  obtain ⟨hat, -⟩ := ByteMem.has_append.1 hat
  obtain ⟨hatf, -⟩ := ByteMem.has_append.1 hat
  obtain ⟨hread6, hns, hfs, hread⟩ := Cpio.read_fields hfront hatf
  have hmagic := (magicMatches_iff hread6).2 hagree
  have hname : ¬ Cpio.strcmp (Cpio.arrayStr (ByteMem.read m (a + Cpio.headerSize) (e.name.length + 1)))
      Cpio.trailer = 0 := by
    rw [← hns, hread, Cpio.arrayStr_terminated hnul, Cpio.strcmp_eq_zero hnul (by decide)]
    exact htrailer
  have hiff := roundStores_inside heap count e
  by_cases hcopies : ∀ s ∈ copyStores (e.name.length + 1), s.Inside
  swap
  · refine Or.inr ⟨fun hfits => hcopies ?_, ?_⟩
    · exact (List.forall_mem_append.1 (hiff.2 hfits)).1
    · simpa only [initramfsInitTrace, if_pos hmagic, hns, if_pos hcopies] using hcopies
  have hcopies' : ¬ ¬ ∀ s ∈ copyStores (e.name.length + 1), s.Inside := not_not.2 hcopies
  by_cases hfits : EntryFits heap count e
  · refine Or.inl ⟨hfits, ?_⟩
    have hinside : ¬ ¬ ∀ s ∈ roundStores heap (e.name.length + 1) e.data.length count, s.Inside :=
      not_not.2 (hiff.2 hfits)
    rw [roundStores] at hinside
    simp only [initramfsInitTrace, if_pos hmagic, hns, hfs, if_neg hcopies', if_neg hname,
      if_neg hinside]
    rfl
  · refine Or.inr ⟨hfits, ?_⟩
    have houtside := fun h => hfits (hiff.1 h)
    rw [roundStores] at houtside
    simpa only [initramfsInitTrace, if_pos hmagic, hns, hfs, if_neg hcopies', if_neg hname,
      if_pos houtside] using houtside

def EntriesFit : Heap → ℤ → List Newc.Entry → Prop
  | _, _, [] => True
  | heap, count, e :: es =>
      EntryFits heap count e ∧ EntriesFit (afterEntry heap e.data.length) (count + 1) es

theorem entriesFit_iff (heap : Heap) (count : ℤ) (es : List Newc.Entry) :
    EntriesFit heap count es ↔ (es = [] ∨ 0 ≤ count ∧ count + es.length ≤ maxChildren) ∧
      (∀ e ∈ es, e.name.length + 2 ≤ maxFileName) ∧ Room heap es := by
  induction es generalizing heap count with
  | nil => simp [EntriesFit, Room]
  | cons e es ih =>
      rw [EntriesFit, ih, Room, List.forall_mem_cons, List.length_cons]
      constructor
      · rintro ⟨⟨hn, hdata, hv, hname, hpos, hroom⟩, hchildren, hnames, hrest⟩
        refine ⟨Or.inr ⟨hpos, ?_⟩, ⟨hname, hnames⟩, hn, hdata, hv, hrest⟩
        rcases hchildren with rfl | ⟨-, hle⟩
        · rw [List.length_nil]
          push_cast
          omega
        · push_cast
          omega
      · rintro ⟨hchildren, ⟨hname, hnames⟩, hn, hdata, hv, hrest⟩
        obtain ⟨hpos, hle⟩ := hchildren.resolve_left (List.cons_ne_nil e es)
        push_cast at hle
        exact ⟨⟨hn, hdata, hv, hname, hpos, by omega⟩, Or.inr ⟨by omega, by omega⟩, hnames, hrest⟩

theorem hexToUintLoop_lt (m : ByteMem) (len : ℕ) (hv : v < 2 ^ 32) :
    Cpio.hexToUintLoop m a len v < 2 ^ 32 := by
  induction len generalizing a v with
  | zero => exact hv
  | succ len ih => exact ih (Nat.mod_lt _ (by decide))

/-- The member of an entry that has room is small. -/
theorem EntryFits.member_lt (hfits : EntryFits heap count e) (h : Member e l) (hat : Has m a l) :
    l.length < 2 ^ 32 := by
  have hlen := h.length
  obtain ⟨front, pad, hfront, -, rfl⟩ := h
  obtain ⟨hat, -⟩ := ByteMem.has_append.1 hat
  obtain ⟨hatf, -⟩ := ByteMem.has_append.1 hat
  obtain ⟨-, -, hfs, -⟩ := Cpio.read_fields hfront hatf
  have hsize : e.data.length < 2 ^ 32 := hfs ▸ hexToUintLoop_lt m 8 (by decide)
  have hname := hfits.name
  have hmax : maxFileName = 64 := rfl
  have hhead : Newc.headerSize = 110 := rfl
  have hdata : e.data.length ≤ Mm.maxAllocSize := by
    rcases hfits.data with hnil | hdata
    · rw [hnil]
      exact Nat.zero_le _
    · rcases (heap.alloc sizeofNode).1.alloc_cases e.data.length with ⟨hp, heq, -⟩ | ⟨hp, p, -, -, -, hle, -⟩
      · rw [heq] at hdata
        exact absurd rfl hdata
      · rwa [Nat.mod_eq_of_lt hsize] at hle
  have hconst : Mm.maxAllocSize < 2 ^ 31 := by decide
  omega

theorem Trace.stored_before (stores : List Store) (t : Trace) :
    (t.before stores).stored = stores.countP (fun s => s.object = .rootChildren) + t.stored :=
  List.countP_append ..

/-- A round stores one child. -/
theorem roundStores_children (heap : Heap) (k size : ℕ) (count : ℤ) :
    (roundStores heap k size count).countP (fun s => s.object = .rootChildren) = 1 := by
  have hnode : ∀ n, (nodeFields n).countP (fun s => s.object = .rootChildren) = 0 := by
    intro n
    refine List.countP_eq_zero.2 fun s hs => ?_
    rcases List.mem_append.1 hs with hs | hs
    · simp only [List.mem_cons, List.not_mem_nil, or_false] at hs
      rcases hs with rfl | rfl | rfl | rfl | rfl | rfl <;> simp
    · obtain ⟨i, -, rfl⟩ := List.mem_map.1 hs
      simp
  simp [roundStores, entryStores, copyStores, vnodeFields, hnode]

/-- The trace over the members of an archive: its stores are inside as long as the entries that the loop
reaches have room, and then each of them has become a child. -/
theorem trace_members (hms : Members es ms) (htl : Member ⟨Newc.trailerName, []⟩ tl)
    (hnames : ∀ e ∈ es, (0 : UInt8) ∉ e.name ∧ e.name ≠ Newc.trailerName) (hat : Has m a (ms ++ tl))
    (hend : a + (ms ++ tl).length < 2 ^ 64) (hrounds : es.length < rounds) (beyond : ℕ → Beyond) (heap : Heap)
    (count : ℤ) :
    ((∀ s ∈ (initramfsInitTrace m beyond rounds a heap count).stores, s.Inside) ↔
        EntriesFit heap count (reached beyond a es)) ∧
      (EntriesFit heap count (reached beyond a es) →
        (initramfsInitTrace m beyond rounds a heap count).numChildren =
            some (count + (reached beyond a es).length) ∧
          (initramfsInitTrace m beyond rounds a heap count).stored = (reached beyond a es).length) := by
  induction hms generalizing a rounds heap count with
  | nil =>
      obtain ⟨rounds, rfl⟩ : ∃ n, rounds = n + 1 := ⟨rounds - 1, by omega⟩
      rw [List.nil_append] at hat
      obtain ⟨stores, heq, hinside, hnone⟩ := trace_trailer htl hat beyond rounds heap count
      rw [heq]
      refine ⟨iff_of_true hinside trivial, fun _ => ⟨?_, hnone⟩⟩
      rw [reached, List.length_nil, Nat.cast_zero, add_zero]
  | @cons e es l ms hl hms ih =>
      obtain ⟨rounds, rfl⟩ : ∃ n, rounds = n + 1 := ⟨rounds - 1, by simp at hrounds; omega⟩
      obtain ⟨hnul, htrailer⟩ := hnames e List.mem_cons_self
      rw [List.append_assoc] at hat hend
      rw [List.length_append] at hend
      obtain ⟨hatl, hrest⟩ := ByteMem.has_append.1 hat
      rw [reached]
      by_cases hagree : (beyond a).Agree
      swap
      · obtain ⟨front, pad, hfront, -, rfl⟩ := hl
        obtain ⟨hatl, -⟩ := ByteMem.has_append.1 hatl
        obtain ⟨hatf, -⟩ := ByteMem.has_append.1 hatl
        rw [if_neg hagree, trace_stops (Cpio.read_fields hfront hatf).1 hagree]
        have hcopy : ∀ s ∈ [(⟨.headerMagic, 0, 6⟩ : Store)], s.Inside := by decide
        refine ⟨iff_of_true hcopy trivial, fun _ => ⟨?_, rfl⟩⟩
        rw [List.length_nil, Nat.cast_zero, add_zero]
      rw [if_pos hagree]
      rcases trace_entry hl hatl hagree hnul htrailer rounds heap count with
        ⟨hfits, heq⟩ | ⟨hfits, houtside⟩
      swap
      · exact ⟨iff_of_false houtside fun h => hfits h.1, fun h => absurd h.1 hfits⟩
      have hname := hfits.name
      have hmax : maxFileName = 64 := rfl
      have hentry := Cpio.entryAt hl hatl hnul (by omega) (hfits.member_lt hl hatl) (by omega)
      have hnext : Cpio.nextHeader m a = a + l.length := by
        rw [hentry.next, hl.length, Nat.add_assoc]
        rfl
      rw [heq, hnext, Cpio.memberSize_eq hl]
      have hrounds' : es.length < rounds := by simpa using hrounds
      obtain ⟨hinside, hcount⟩ := ih (fun x hx => hnames x (List.mem_cons_of_mem _ hx)) hrest (by omega)
        hrounds' (afterEntry heap e.data.length) (count + 1)
      constructor
      · change (∀ s ∈ roundStores _ _ _ _ ++ _, s.Inside) ↔ _
        rw [List.forall_mem_append, roundStores_inside, hinside]
        rfl
      · rintro ⟨-, hfit⟩
        obtain ⟨hnum, hstored⟩ := hcount hfit
        refine ⟨?_, ?_⟩
        · change (initramfsInitTrace ..).numChildren = _
          rw [hnum, List.length_cons]
          push_cast
          congr 1
          ring
        · rw [Trace.stored_before, roundStores_children, hstored, List.length_cons, Nat.add_comm]

/-- On every archive the stores of `initramfs_init` lie inside of their objects and the children are counted,
if and only if the entries that the loop reaches fit the root. -/
theorem initramfsInit_safe_iff (harch : Archive es bs)
    (hnames : ∀ e ∈ es, (0 : UInt8) ∉ e.name ∧ e.name ≠ Newc.trailerName) (hat : Has m addr bs)
    (hend : addr + bs.length < 2 ^ 64) (hrounds : es.length < rounds) (beyond : ℕ → Beyond) (heap : Heap)
    (count : ℤ) :
    (initramfsInitStores m beyond addr rounds heap count).Safe ↔
      FitsRoot heap count (reached beyond addr es) := by
  obtain ⟨ms, tl, hms, htl, rfl⟩ := harch
  obtain ⟨hinside, hcount⟩ := trace_members hms htl hnames hat hend hrounds beyond heap count
  have hfirst : (⟨.rootType, 0, 4⟩ : Store).Inside := by decide
  have hall : (∀ s ∈ (initramfsInitStores m beyond addr rounds heap count).stores, s.Inside) ↔
      EntriesFit heap count (reached beyond addr es) := by
    rw [← hinside]
    exact List.forall_mem_cons.trans (and_iff_right hfirst)
  have hstored : (initramfsInitStores m beyond addr rounds heap count).stored =
      (initramfsInitTrace m beyond rounds addr heap count).stored := by
    rw [initramfsInitStores, Trace.stored_before]
    exact Nat.zero_add _
  have hnum : (initramfsInitStores m beyond addr rounds heap count).numChildren =
      (initramfsInitTrace m beyond rounds addr heap count).numChildren := rfl
  constructor
  · rintro ⟨hin, hcounted⟩
    have hfit := hall.1 hin
    obtain ⟨hn, hs⟩ := hcount hfit
    rw [hnum, hn, hstored, hs] at hcounted
    have hzero : count = 0 := by
      have := Option.some.inj hcounted
      omega
    obtain ⟨hchildren, hlen, hroom⟩ := (entriesFit_iff heap count _).1 hfit
    refine ⟨hzero, ?_, hlen, hroom⟩
    rcases hchildren with hnil | ⟨-, hle⟩
    · rw [hnil]
      exact Nat.zero_le _
    · omega
  · rintro ⟨rfl, hchildren, hlen, hroom⟩
    have hfit := (entriesFit_iff heap 0 _).2 ⟨Or.inr ⟨le_rfl, by omega⟩, hlen, hroom⟩
    obtain ⟨hn, hs⟩ := hcount hfit
    refine ⟨hall.2 hfit, ?_⟩
    rw [hnum, hn, hstored, hs, Int.zero_add]

def archiveMem (es : List Newc.Entry) : ByteMem := ByteMem.write (fun _ => 0) 0 (Newc.encode false es)

theorem archiveMem_has (es : List Newc.Entry) : Has (archiveMem es) 0 (Newc.encode false es) :=
  ByteMem.read_write_same ..

def threeEntries : List Newc.Entry := [⟨[97], [1, 2, 3]⟩, ⟨[98, 99], []⟩, ⟨[100], [4, 5, 6, 7, 8]⟩]

theorem threeEntries_fit : FitsRoot State.blank.heap 0 (reached terminated 0 threeEntries) := by
  have hreached : reached terminated 0 threeEntries = threeEntries := rfl
  rw [hreached]
  refine ⟨rfl, by decide, by decide, ?_⟩
  exact ⟨by decide, Or.inr (by decide), by decide, by decide, Or.inl rfl,
    by decide, by decide, Or.inr (by decide), by decide, trivial⟩

/-- An archive with two files that hold data and an empty one. -/
theorem initramfsInit_safe_threeEntries :
    (initramfsInitStores (archiveMem threeEntries) terminated 0 4 State.blank.heap 0).Safe :=
  (initramfsInit_safe_iff (Newc.archive_encode false (by decide)) (by decide) (archiveMem_has threeEntries)
    (by decide +kernel) (by decide) terminated State.blank.heap 0).2 threeEntries_fit

def longEntry : Newc.Entry := ⟨List.replicate 63 97, []⟩

/-- The second terminator of the name goes into the field behind `name`. -/
theorem name_overflows :
    Archive [longEntry] (Newc.encode false [longEntry]) ∧
      ((0 : UInt8) ∉ longEntry.name ∧ longEntry.name ≠ Newc.trailerName) ∧
      Has (archiveMem [longEntry]) 0 (Newc.encode false [longEntry]) ∧
      ¬ (initramfsInitStores (archiveMem [longEntry]) terminated 0 2 State.blank.heap 0).Safe := by
  refine ⟨Newc.archive_encode false (by decide), by decide, archiveMem_has _, fun h => ?_⟩
  have houtside : ¬ (⟨.nodeName 4096, 64, 1⟩ : Store).Inside := by decide
  exact houtside (h.inside _ (by decide +kernel))

/-- With room for an entry a round adds it. -/
theorem initramfsAddEntry_room {st : State} (root : ℕ) (hroom : Room st.heap (e :: es)) :
    ∃ st', initramfsAddEntry st root (entryOf e) = some st' ∧ Room st'.heap es := by
  obtain ⟨hn, hdata, hv, hrest⟩ := hroom
  have hn' : (st.alloc sizeofNode).2 ≠ 0 := hn
  have hnone : ¬ (((st.alloc sizeofNode).1.alloc (entryOf e).data.length).2 = 0 ∧ (entryOf e).data ≠ []) := by
    rintro ⟨h0, hne⟩
    exact hdata.elim hne fun hp => hp h0
  have hv' : (((st.alloc sizeofNode).1.alloc (entryOf e).data.length).1.heap.alloc sizeofVnode).2 ≠ 0 := hv
  simp only [initramfsAddEntry, if_neg hn', if_neg hnone]
  exact ⟨_, if_neg hv', hrest⟩

theorem addEntries_room {st : State} {root : ℕ} (hroom : Room st.heap es) :
    ((es.map entryOf).foldlM (fun st e => initramfsAddEntry st root e) st).isSome := by
  induction es generalizing st with
  | nil => rfl
  | cons e es ih =>
      obtain ⟨st', hadd, hrest⟩ := initramfsAddEntry_room root hroom
      rw [List.map_cons, List.foldlM_cons, hadd]
      exact ih hrest

theorem Room.reached (hroom : Room heap es) (beyond : ℕ → Beyond) (a : ℕ) :
    Room heap (Vfs.reached beyond a es) := by
  induction es generalizing heap a with
  | nil => trivial
  | cons e es ih =>
      rw [Vfs.reached]
      split_ifs
      · exact ⟨hroom.1, hroom.2.1, hroom.2.2.1, ih hroom.2.2.2 _⟩
      · trivial

/-- Where the entries fit, the loop on the whole state returns. -/
theorem FitsRoot.returns {st : State} {T : Set ℕ} {root : ℕ}
    (hfit : FitsRoot st.heap (st.internal root).numChildren es) (h : Cpio.Placed st.mem addr es bs)
    (hres : Reserved st addr bs.length) (ht : Tree st T) (hroot : root ∈ T) (hrounds : es.length < rounds) :
    (initramfsInitAt beyond addr rounds st root).isSome := by
  have hempty := hfit.empty
  have hchildren := hfit.children
  rw [initramfsInitAt_eq h hres ht hroot (fun e he => hfit.names e he) (by omega) hrounds, initramfsInit,
    if_neg (ht.ne_zero hroot)]
  exact addEntries_room (hfit.room.reached beyond addr)

end OscKernel.Vfs
