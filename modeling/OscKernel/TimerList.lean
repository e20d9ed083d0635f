import OscKernel.SortedLinks
import OscKernel.Timer

/-!
# The timer list in memory

Following the field `next` from the head, the nodes come in the order of their expiration. Linking a new
node is an ordered insertion into that list. It writes to the first two fields of nodes only, so no node
gets another callback or expiration.
-/

namespace OscKernel.Timer

open ByteOrder Linked
open SortedLinks (Layout SortedList)

variable {m m' : ByteMem} {a b v head node rounds curr e : ℕ} {l : List ℕ}

def NodesApart (a b : ℕ) : Prop := a + nodeSize ≤ b ∨ b + nodeSize ≤ a

theorem NodesApart.symm (h : NodesApart a b) : NodesApart b a := Or.comm.1 h

def NodesFit (a b : ℕ) : Prop := a = b ∨ NodesApart a b

def layout : Layout ℕ where
  size := nodeSize
  key := expiration
  links_le := by decide
  key_congr := fun h => word_congr fun x hlo hhi => by
    simp only [offExpiration, nodeSize] at hlo hhi h
    exact h x (by omega) (by omega)

section Fields

variable (h : NodesFit a b)
include h

theorem next_setPrev : next (setPrev m b v) a = next m a := SortedLinks.next_setPrev (L := layout) h

theorem callback_setPrev : callback (setPrev m b v) a = callback m a :=
  word_setWord_apart (by simp only [NodesFit, NodesApart, nodeSize, offCallback] at h ⊢; omega)

theorem expiration_setPrev : expiration (setPrev m b v) a = expiration m a :=
  (SortedLinks.sameData_setPrev (L := layout) h).key

end Fields

structure SameNode (m m' : ByteMem) (a : ℕ) : Prop where
  next : next m' a = next m a
  callback : callback m' a = callback m a
  expiration : expiration m' a = expiration m a

theorem sameNode_of_outside (h : ∀ x, a ≤ x → x < a + nodeSize → m' x = m x) : SameNode m m' a := by
  refine ⟨?_, ?_, ?_⟩ <;>
  · refine word_congr fun x hlo hhi => h x ?_ ?_ <;>
    · simp only [offNext, offCallback, offExpiration, nodeSize] at hlo hhi ⊢
      omega

theorem fillNode_outside {callback : UInt64} {msg : List UInt8} {due x : ℕ} (hfit : Fits msg)
    (hx : x < node ∨ node + nodeSize ≤ x) : fillNode m node callback msg due x = m x := by
  rw [Fits] at hfit
  simp only [offMsg, nodeSize] at hfit hx
  rw [fillNode, setCallback, setWord_outside (by rw [offCallback]; omega), setExpiration,
    setWord_outside (by rw [offExpiration]; omega), setMsg]
  apply ByteMem.write_outside
  rw [List.length_append, List.length_singleton, offMsg]
  omega

theorem fillNode_sameNode {callback : UInt64} {msg : List UInt8} {due : ℕ} (hfit : Fits msg)
    (h : NodesApart a node) : SameNode m (fillNode m node callback msg due) a := by
  refine sameNode_of_outside fun x hlo hhi => fillNode_outside hfit ?_
  rw [NodesApart] at h
  omega

/-- The new node holds what `add_timer` was called with, however long the message is. -/
theorem fillNode_fields (m : ByteMem) (node : ℕ) (c : UInt64) (msg : List UInt8) {due : ℕ}
    (hdue : due < 2 ^ 64) : callback (fillNode m node c msg due) node = c.toNat ∧
      expiration (fillNode m node c msg due) node = due := by
  refine ⟨word_setWord c.toNat_lt, ?_⟩
  rw [fillNode, setCallback, expiration, word_setWord_apart (by rw [offCallback, offExpiration]; omega)]
  exact word_setWord hdue

def ptr (v : ℕ) : Option ℕ := if v = 0 then none else some v

theorem ptr_of_ne (h : v ≠ 0) : ptr v = some v := if_neg h

def nextPtr (m : ByteMem) (a : ℕ) : Option ℕ := ptr (next m a)

def Sooner (m : ByteMem) (a b : ℕ) : Prop := expiration m a ≤ expiration m b

instance (m : ByteMem) : DecidableRel (Sooner m) := fun _ _ => inferInstanceAs (Decidable (_ ≤ _))

/-- The list of a head: a chain of nonnull nodes that are apart, in the order of their expiration. -/
structure TimerList (m : ByteMem) (head : ℕ) (l : List ℕ) : Prop where
  chain : Chain (nextPtr m) (ptr head) l
  apart : l.Pairwise NodesApart
  sorted : l.Pairwise (Sooner m)
  nonnull : ∀ a ∈ l, 0 < a ∧ a < 2 ^ 64

theorem timerList_iff : TimerList m head l ↔ SortedList layout m head l :=
  ⟨fun h => ⟨h.chain, h.apart, h.sorted, h.nonnull⟩, fun h => ⟨h.chain, h.apart, h.sorted, h.nonnull⟩⟩

theorem TimerList.congr (h : TimerList m head l) (hm : ∀ a ∈ l, SameNode m m' a) :
    TimerList m' head l :=
  timerList_iff.2 ((timerList_iff.1 h).congr (fun a ha => (hm a ha).next) fun a ha => (hm a ha).expiration)

theorem TimerList.fit (h : TimerList m head l) (ha : a ∈ l) (hb : b ∈ l) : NodesFit a b :=
  (timerList_iff.1 h).fit ha hb

theorem TimerList.eq_nil_iff (h : TimerList m head l) : l = [] ↔ head = 0 := (timerList_iff.1 h).eq_nil_iff

theorem TimerList.exists_cons (h : TimerList m head l) (hne : head ≠ 0) : ∃ t, l = head :: t :=
  (timerList_iff.1 h).exists_cons hne

theorem TimerList.tail (h : TimerList m head (a :: l)) : TimerList m (next m a) l :=
  timerList_iff.2 (timerList_iff.1 h).tail

/-- What linking a new node does to the list and to the fields of its nodes. -/
structure Inserted (m : ByteMem) (head node : ℕ) (l : List ℕ) (r : ByteMem × ℕ × Bool) : Prop where
  list : TimerList r.1 r.2.1 (l.orderedInsert (Sooner m) node)
  callback : ∀ a ∈ node :: l, callback r.1 a = callback m a
  expiration : ∀ a ∈ node :: l, expiration r.1 a = expiration m a

theorem next_eq : next = SortedLinks.next := rfl

theorem setPrev_eq : setPrev = SortedLinks.setPrev := rfl

theorem setNext_eq : setNext = SortedLinks.setNext := rfl

theorem layout_key : layout.key = expiration := rfl

theorem walk_eq (m : ByteMem) (e n curr : ℕ) : walk m e n curr = SortedLinks.walk layout m e n curr := by
  induction n generalizing curr with
  | zero => rfl
  | succ n ih =>
      simp only [walk, SortedLinks.walk, ih, next_eq, layout_key]
      exact if_congr Iff.rfl rfl rfl

theorem link_eq (m : ByteMem) (head node rounds : ℕ) :
    link m head node rounds = SortedLinks.link layout m head node rounds := by
  by_cases hhead : head = 0
  · rw [link, SortedLinks.link, if_pos hhead, if_pos hhead, setPrev_eq, setNext_eq]
  rw [link, SortedLinks.link, if_neg hhead, if_neg hhead]
  by_cases hle : expiration m node ≤ expiration m head
  · have hkey : layout.key m node ≤ layout.key m head := hle
    rw [if_pos hle, if_pos hkey, setPrev_eq, setNext_eq]
  · have hkey : ¬ layout.key m node ≤ layout.key m head := hle
    rw [if_neg hle, if_neg hkey]
    simp only [walk_eq, next_eq, setPrev_eq, setNext_eq, layout_key]

theorem orderedInsert_eq (m : ByteMem) (node : ℕ) (l : List ℕ) :
    l.orderedInsert (Sooner m) node = l.orderedInsert (layout.Le m) node := by
  induction l with
  | nil => rw [List.orderedInsert_nil, List.orderedInsert_nil]
  | cons a l ih =>
      rw [List.orderedInsert_cons, List.orderedInsert_cons, ih]
      exact if_congr Iff.rfl rfl rfl

/-- Linking a node is an ordered insertion. -/
theorem link_spec (h : TimerList m head l) (hnode : 0 < node ∧ node < 2 ^ 64)
    (hap : ∀ a ∈ l, NodesApart node a) (hn : l.length ≤ rounds) :
    Inserted m head node l (link m head node rounds) := by
  have hins := SortedLinks.link_spec (timerList_iff.1 h) hnode hap hn
  have hsize : layout.size = 96 := rfl
  rw [link_eq]
  refine ⟨?_, fun a ha => ?_, fun a ha => (hins.same a ha).key⟩
  · rw [orderedInsert_eq]
    exact timerList_iff.2 hins.list
  apply word_congr
  intro x hlo hhi
  rw [offCallback] at hlo hhi
  exact hins.same a ha x hlo (by omega)

end OscKernel.Timer
