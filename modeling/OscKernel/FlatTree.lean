import OscKernel.ByteOrder

/-!
# Trees as flat token streams

A tree of named nodes with properties, its events in pre-order, and its encodings as a stream of
big-endian tokens, each item padded to four bytes, with any number of idle tokens between the items. Every
encoding of a tree, which follows the recursion of the tree, is an encoding of its events one after the
other.
-/

namespace FlatTree

open ByteOrder

/-- The name of a property lies in a table of its own, at `nameOff`. -/
structure Property where
  name : List UInt8
  nameOff : ℕ
  value : List UInt8

inductive Tree where
  | node (name : List UInt8) (props : List Property) (children : List Tree)

inductive Event where
  | beginNode (name : List UInt8)
  | prop (p : Property)
  | endNode

mutual

def Tree.events : Tree → List Event
  | .node name props children =>
      .beginNode name :: (props.map .prop ++ (eventsAll children ++ [.endNode]))

def eventsAll : List Tree → List Event
  | [] => []
  | t :: ts => t.events ++ eventsAll ts

end

def be32 (v : ℕ) : List UInt8 := (bytes 4 v).reverse

def beginToken : ℕ := 1
def endToken : ℕ := 2
def propToken : ℕ := 3
def nopToken : ℕ := 4
def stopToken : ℕ := 9

/-- What is appended to `n` bytes to reach a multiple of four. -/
def Pad (n : ℕ) (pad : List UInt8) : Prop := pad.length < 4 ∧ 4 ∣ n + pad.length

theorem Pad.length_eq {n : ℕ} {pad : List UInt8} (h : Pad n pad) :
    n + pad.length = (n + 3) / 4 * 4 := by
  obtain ⟨hlt, k, hk⟩ := h
  omega

inductive EventBytes : Event → List UInt8 → Prop
  | beginNode {name pad : List UInt8} (hname : (0 : UInt8) ∉ name) (hpad : Pad (name.length + 1) pad) :
      EventBytes (.beginNode name) (be32 beginToken ++ (name ++ [0] ++ pad))
  | prop {p : Property} {pad : List UInt8} (hoff : p.nameOff < 2 ^ 32)
      (hlen : p.value.length < 2 ^ 31) (hpad : Pad p.value.length pad) :
      EventBytes (.prop p)
        (be32 propToken ++ (be32 p.value.length ++ (be32 p.nameOff ++ (p.value ++ pad))))
  | endNode : EventBytes .endNode (be32 endToken)

def nops : ℕ → List UInt8
  | 0 => []
  | k + 1 => be32 nopToken ++ nops k

/-- The events `es` one after the other, with idle tokens before each. -/
inductive Encodes : List Event → List UInt8 → Prop
  | nil : Encodes [] []
  | cons {e : Event} {es : List Event} {b bs : List UInt8} (k : ℕ) (he : EventBytes e b)
      (h : Encodes es bs) : Encodes (e :: es) (nops k ++ (b ++ bs))

mutual

/-- An encoding of a tree, by the recursion of the tree. -/
def Tree.EncodedBy : Tree → List UInt8 → Prop
  | .node name props children, bs => ∃ b bp bc k, EventBytes (.beginNode name) b ∧
      Encodes (props.map .prop) bp ∧ EncodedAll children bc ∧
      bs = b ++ (bp ++ (bc ++ (nops k ++ be32 endToken)))

def EncodedAll : List Tree → List UInt8 → Prop
  | [], bs => bs = []
  | t :: ts, bs => ∃ k b bt, t.EncodedBy b ∧ EncodedAll ts bt ∧ bs = nops k ++ (b ++ bt)

end

def Tree.StreamedBy (t : Tree) (bs : List UInt8) : Prop :=
  ∃ i b j, t.EncodedBy b ∧ bs = nops i ++ (b ++ (nops j ++ be32 stopToken))

variable {es es' : List Event} {bs bs' : List UInt8}

theorem Encodes.append (h : Encodes es bs) (h' : Encodes es' bs') :
    Encodes (es ++ es') (bs ++ bs') := by
  induction h with
  | nil => exact h'
  | cons k he _ ih =>
      rw [List.append_assoc, List.append_assoc]
      exact ih.cons k he

theorem Encodes.single {e : Event} {b : List UInt8} (k : ℕ) (he : EventBytes e b) :
    Encodes [e] (nops k ++ b) := by
  have h := Encodes.nil.cons k he
  rwa [List.append_nil] at h

theorem nops_add (i j : ℕ) : nops (i + j) = nops i ++ nops j := by
  induction i with
  | zero => rw [Nat.zero_add]; rfl
  | succ i ih => rw [Nat.succ_add, nops, nops, ih, List.append_assoc]

/-- Idle tokens may be added in front of an encoding that is not empty. -/
theorem Encodes.nops (k : ℕ) {e : Event} (h : Encodes (e :: es) bs) :
    Encodes (e :: es) (nops k ++ bs) := by
  cases h with
  | cons j he h =>
      rw [← List.append_assoc, ← nops_add]
      exact h.cons (k + j) he

mutual

theorem Tree.EncodedBy.encodes : ∀ (t : Tree) (bs : List UInt8), t.EncodedBy bs →
    Encodes t.events bs
  | .node name props children, bs, h => by
      rw [Tree.EncodedBy] at h
      obtain ⟨b, bp, bc, k, hb, hp, hc, rfl⟩ := h
      have hrest := hp.append ((EncodedAll.encodes children bc hc).append
        (Encodes.single k EventBytes.endNode))
      rw [Tree.events]
      exact hrest.cons 0 hb

theorem EncodedAll.encodes : ∀ (ts : List Tree) (bs : List UInt8), EncodedAll ts bs →
    Encodes (eventsAll ts) bs
  | [], bs, h => by
      rw [EncodedAll] at h
      subst h
      exact Encodes.nil
  | .node name props children :: ts, bs, h => by
      rw [EncodedAll] at h
      obtain ⟨k, b, bt, hb, ht, rfl⟩ := h
      have hfirst := Tree.EncodedBy.encodes _ b hb
      rw [eventsAll, ← List.append_assoc]
      rw [Tree.events] at hfirst ⊢
      exact (hfirst.nops k).append (EncodedAll.encodes ts bt ht)

end

theorem Tree.StreamedBy.encodes {t : Tree} (h : t.StreamedBy bs) :
    ∃ b j, Encodes t.events b ∧ bs = b ++ (FlatTree.nops j ++ be32 stopToken) := by
  obtain ⟨i, b, j, hb, rfl⟩ := h
  obtain ⟨name, props, children⟩ := t
  have hfirst := Tree.EncodedBy.encodes _ b hb
  refine ⟨FlatTree.nops i ++ b, j, ?_, by rw [List.append_assoc]⟩
  rw [Tree.events] at hfirst ⊢
  exact hfirst.nops i

end FlatTree
