import OscKernel.CStrings
import OscKernel.CpioDecode
import OscKernel.FlatTree

/-!
# The device tree

`fdt_init`, `fdt_parse_node` and `fdt_traverse` of `devicetree.c`, on a blob in a byte memory. A callback
sees all its calls so far and answers the last one. A loop has `none` as its result when it does not end
within its rounds.
-/

namespace OscKernel.Fdt

open ByteOrder ByteMem FlatTree
open Cpio (align)

def fdtBeginNode : ℕ := 0x1
def fdtEndNode : ℕ := 0x2
def fdtProp : ℕ := 0x3
def fdtNop : ℕ := 0x4
def fdtEnd : ℕ := 0x9

def be2leU32 (be : BitVec 32) : BitVec 32 :=
  ((be &&& 0xFF) <<< 24) ||| ((be &&& 0xFF00) <<< 8) ||| ((be &&& 0xFF0000) >>> 8) |||
    ((be &&& 0xFF000000) >>> 24)

def load32 (m : ByteMem) (p : ℕ) : BitVec 32 := BitVec.ofNat 32 (value (m.read p 4))

def strlen (m : ByteMem) (rounds s : ℕ) : Option ℕ :=
  let stop := CStrings.scan m (· ≠ 0) rounds s
  if m stop = 0 then some ((stop - s) % 2 ^ 32) else none

/-- The arguments of a call of the callback. -/
structure Call where
  type : ℕ
  name : ℕ
  data : ℕ
  size : ℕ
  userData : ℕ
  deriving DecidableEq, Repr

/-- A callback that has been given the calls of the list returns what the function says. -/
abbrev Callback := Option (List Call → ℤ)

structure Result where
  ret : ℤ
  ptr : ℕ
  calls : List Call
  out : List String

def invoke (callback : Callback) (calls : List Call) (c : Call) (next : ℕ)
    (go : List Call → Option Result) : Option Result :=
  match callback with
  | none => go calls
  | some f =>
      if f (calls ++ [c]) ≠ 0 then
        some ⟨-1, next, calls ++ [c], ["Failed to parse the node! Skip it.\r\n"]⟩
      else go (calls ++ [c])

/-- The loop of `fdt_parse_node` from the position `p` on. -/
def fdtParseNode (m : ByteMem) (strings : ℕ) (callback : Callback) (rounds : ℕ) :
    ℕ → ℕ → List Call → Option Result
  | 0, _, _ => none
  | n + 1, ptr, calls =>
      let token := (be2leU32 (load32 m ptr)).toNat
      let p := ptr + 4
      if token = fdtBeginNode then
        (strlen m rounds p).bind fun len =>
          let next := p + (align (BitVec.ofNat 32 (len + 1)) 4).toNat
          invoke callback calls ⟨fdtBeginNode, p, 0, 0, 0⟩ next
            (fdtParseNode m strings callback rounds n next)
      else if token = fdtEndNode then
        invoke callback calls ⟨fdtEndNode, 0, 0, 0, 0⟩ p (fdtParseNode m strings callback rounds n p)
      else if token = fdtProp then
        let len := be2leU32 (load32 m p)
        let nameoff := (be2leU32 (load32 m (p + 4))).toNat
        let next := p + (8 + (align len 4).toNat)
        invoke callback calls ⟨fdtProp, strings + nameoff, p + 8, len.toNat, 0⟩ next
          (fdtParseNode m strings callback rounds n next)
      else if token = fdtNop then fdtParseNode m strings callback rounds n p calls
      else if token = fdtEnd then some ⟨0, p, calls, []⟩
      else some ⟨-1, p, calls, ["Invalid FDT token!\r\n"]⟩

/-- The static variables of `devicetree.c`. -/
structure Globals where
  base : ℕ
  strings : ℕ
  structure_ : ℕ
  totalSize : ℕ
  stringsSize : ℕ
  structureSize : ℕ
  deriving DecidableEq, Repr

/-- The fields of `struct fdt_header`, each four bytes. -/
def headerMagic : ℕ := 0
def headerTotalSize : ℕ := 4
def headerOffStruct : ℕ := 8
def headerOffStrings : ℕ := 12
def headerSizeStrings : ℕ := 32
def headerSizeStruct : ℕ := 36

def fdtInit (m : ByteMem) (base : ℕ) (g : Globals) : ℤ × Globals × List String :=
  if base = 0 then (0, g, [])
  else
    let g := { g with base := base }
    let field := fun off => (be2leU32 (load32 m (base + off))).toNat
    if field headerMagic ≠ 0xd00dfeed then (-1, g, ["Invalid FDT magic number!\n"])
    else (0, { g with
      totalSize := (load32 m (base + headerTotalSize)).toNat
      structure_ := base + field headerOffStruct
      strings := base + field headerOffStrings
      stringsSize := field headerSizeStrings
      structureSize := field headerSizeStruct }, [])

def fdtTraverse (m : ByteMem) (g : Globals) (callback : Callback) (rounds : ℕ) : Option Result :=
  if g.base = 0 ∨ g.structure_ = 0 then some ⟨-1, 0, [], []⟩
  else fdtParseNode m g.strings callback rounds rounds g.structure_ []

variable {m : ByteMem} {strings p v n rounds : ℕ} {callback : Callback} {calls : List Call}
  {l bs : List UInt8}

theorem or_bytes {a b c d : ℕ} (hb : b < 256) (hc : c < 256) (hd : d < 256) :
    a * 2 ^ 24 ||| b * 2 ^ 16 ||| c * 2 ^ 8 ||| d = d + 256 * (c + 256 * (b + 256 * a)) := by
  have h1 : c * 2 ^ 8 ||| d = c * 2 ^ 8 + d := or_eq_add 8 hd
  have h2 : b * 2 ^ 16 ||| (c * 2 ^ 8 + d) = b * 2 ^ 16 + (c * 2 ^ 8 + d) :=
    or_eq_add 16 (by omega)
  have h3 : a * 2 ^ 24 ||| (b * 2 ^ 16 + (c * 2 ^ 8 + d)) =
      a * 2 ^ 24 + (b * 2 ^ 16 + (c * 2 ^ 8 + d)) := or_eq_add 24 (by omega)
  rw [Nat.or_assoc, Nat.or_assoc, h1, h2, h3]
  omega

theorem be2leU32_bytes {a b c d : ℕ} (ha : a < 256) (hb : b < 256) (hc : c < 256) (hd : d < 256) :
    be2leU32 (BitVec.ofNat 32 (a + 256 * (b + 256 * (c + 256 * d)))) =
      BitVec.ofNat 32 (d + 256 * (c + 256 * (b + 256 * a))) := by
  obtain ⟨n, hn⟩ : ∃ n, n = a + 256 * (b + 256 * (c + 256 * d)) := ⟨_, rfl⟩
  have hx : (BitVec.ofNat 32 n).toNat = n := by
    rw [BitVec.toNat_ofNat, Nat.mod_eq_of_lt (by omega)]
  have m0 : (0xFF : BitVec 32).toNat = 255 <<< 0 := rfl
  have m1 : (0xFF00 : BitVec 32).toNat = 255 <<< 8 := rfl
  have m2 : (0xFF0000 : BitVec 32).toNat = 255 <<< 16 := rfl
  have m3 : (0xFF000000 : BitVec 32).toNat = 255 <<< 24 := rfl
  have d0 : n / 2 ^ 0 % 256 = a := by omega
  have d1 : n / 2 ^ 8 % 256 = b := by omega
  have d2 : n / 2 ^ 16 % 256 = c := by omega
  have d3 : n / 2 ^ 24 % 256 = d := by omega
  have e0 : a * 2 ^ 0 * 2 ^ 24 % 2 ^ 32 = a * 2 ^ 24 := by omega
  have e1 : b * 2 ^ 8 * 2 ^ 8 % 2 ^ 32 = b * 2 ^ 16 := by
    rw [Nat.mul_assoc, ← pow_add]
    exact Nat.mod_eq_of_lt (by omega)
  have e2 : c * 2 ^ 16 / 2 ^ 8 = c * 2 ^ 8 := by omega
  have e3 : d * 2 ^ 24 / 2 ^ 24 = d := Nat.mul_div_cancel d (by decide)
  apply BitVec.eq_of_toNat_eq
  rw [← hn, be2leU32, BitVec.toNat_or, BitVec.toNat_or, BitVec.toNat_or, BitVec.toNat_shiftLeft,
    BitVec.toNat_shiftLeft, BitVec.toNat_ushiftRight, BitVec.toNat_ushiftRight, BitVec.toNat_and,
    BitVec.toNat_and, BitVec.toNat_and, BitVec.toNat_and, hx, m0, m1, m2, m3, and_byte, and_byte,
    and_byte, and_byte, d0, d1, d2, d3, Nat.shiftLeft_eq, Nat.shiftLeft_eq, Nat.shiftRight_eq_div_pow,
    Nat.shiftRight_eq_div_pow, e0, e1, e2, e3, or_bytes hb hc hd, BitVec.toNat_ofNat,
    Nat.mod_eq_of_lt (by omega)]

/-- A big-endian number in memory is read as it is. -/
theorem be2leU32_load (h : m.Has p (be32 v)) (hv : v < 2 ^ 32) :
    be2leU32 (load32 m p) = BitVec.ofNat 32 v := by
  have hread : m.read p 4 = be32 v := h
  have hval := value_bytes_of_lt (n := 4) hv
  rw [load32, hread, be32]
  simp only [bytes, List.reverse_cons, List.reverse_nil, List.nil_append, List.cons_append,
    value_cons, value_nil, Nat.mul_zero, Nat.add_zero] at hval ⊢
  have hb := fun x : ℕ => (UInt8.ofNat x).toNat_lt
  have hswap := be2leU32_bytes (hb (v / 256 / 256 / 256)) (hb (v / 256 / 256)) (hb (v / 256)) (hb v)
  rw [hval] at hswap
  exact hswap

def Delivers (m : ByteMem) (c : Call) : Event → Prop
  | .beginNode name => c.type = fdtBeginNode ∧ CStrings.Holds m c.name name ∧ c.data = 0 ∧
      c.size = 0 ∧ c.userData = 0
  | .prop q => c.type = fdtProp ∧ CStrings.Holds m c.name q.name ∧ m.Has c.data q.value ∧
      c.size = q.value.length ∧ c.userData = 0
  | .endNode => c = ⟨fdtEndNode, 0, 0, 0, 0⟩

/-- A root with a property and a child. -/
def sampleTree : Tree := .node [] [⟨[97], 0, [1]⟩] [.node [98] [] []]

def sampleChild : List UInt8 :=
  (be32 beginToken ++ ([98] ++ [0] ++ [0, 0])) ++ ([] ++ ([] ++ (nops 0 ++ be32 endToken)))

/-- The structure block, with an idle token before the property. -/
def sampleStruct : List UInt8 :=
  nops 0 ++ ((be32 beginToken ++ ([] ++ [0] ++ [0, 0, 0])) ++ ((nops 1 ++ ((be32 propToken ++
    (be32 1 ++ (be32 0 ++ ([1] ++ [0, 0, 0])))) ++ [])) ++ ((nops 0 ++ (sampleChild ++ [])) ++
      (nops 0 ++ be32 endToken))) ++ (nops 0 ++ be32 stopToken))

def sampleBlob : List UInt8 :=
  be32 0xd00dfeed ++ be32 90 ++ be32 40 ++ be32 88 ++ be32 40 ++ be32 17 ++ be32 16 ++ be32 0 ++
    be32 2 ++ be32 48 ++ sampleStruct ++ [97, 0]

def sampleMem : ByteMem := fun a => sampleBlob.getD (a - 256) 0

def sampleGlobals : Globals := ⟨256, 344, 296, 0x5A000000, 2, 48⟩

theorem sampleChild_encoded : (FlatTree.Tree.node [98] [] []).EncodedBy sampleChild := by
  have hbegin : EventBytes (.beginNode [98]) (be32 beginToken ++ ([98] ++ [0] ++ [0, 0])) :=
    .beginNode (by decide) ⟨by decide, by decide⟩
  rw [Tree.EncodedBy]
  exact ⟨_, [], [], 0, hbegin, Encodes.nil, by rw [EncodedAll], rfl⟩

theorem sampleTree_streamed : sampleTree.StreamedBy sampleStruct := by
  have hroot : EventBytes (.beginNode []) (be32 beginToken ++ ([] ++ [0] ++ [0, 0, 0])) :=
    .beginNode (by decide) ⟨by decide, by decide⟩
  have hprop : EventBytes (.prop ⟨[97], 0, [1]⟩)
      (be32 propToken ++ (be32 1 ++ (be32 0 ++ ([1] ++ [0, 0, 0])))) :=
    .prop (by decide) (by decide) ⟨by decide, by decide⟩
  have hchildren : EncodedAll [.node [98] [] []] (nops 0 ++ (sampleChild ++ [])) := by
    rw [EncodedAll]
    exact ⟨0, sampleChild, [], sampleChild_encoded, by rw [EncodedAll], rfl⟩
  refine ⟨0, _, 0, ?_, rfl⟩
  rw [sampleTree, Tree.EncodedBy]
  exact ⟨_, _, _, 0, hroot, Encodes.nil.cons 1 hprop, hchildren, rfl⟩

theorem sample_init : fdtInit sampleMem 256 ⟨0, 0, 0, 0, 0, 0⟩ = (0, sampleGlobals, []) := by decide

theorem sample_struct : sampleMem.Has 296 sampleStruct :=
  (by decide : sampleMem.read 296 sampleStruct.length = sampleStruct)

end OscKernel.Fdt
