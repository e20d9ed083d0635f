import OscKernel.ByteOrder
import OscKernel.LinkedList
import Mathlib.Data.List.Sort

/-!
# Sorted linked lists in a byte memory

A node begins with the words `prev` and `next`, and its key lies behind them. Linking a new node is an
ordered insertion into the list that the fields `next` give, and writes to nothing but the links of the
nodes. The fields `prev` come right at the front of the list only: behind another node, the new node is
made to point back to itself.
-/

namespace SortedLinks

open ByteOrder Linked

structure Layout (K : Type*) where
  size : ℕ
  key : ByteMem → ℕ → K
  links_le : 16 ≤ size
  key_congr : ∀ {m m' : ByteMem} {a : ℕ},
    (∀ x, a + 16 ≤ x → x < a + size → m' x = m x) → key m' a = key m a

def prev (m : ByteMem) (a : ℕ) : ℕ := word m a
def next (m : ByteMem) (a : ℕ) : ℕ := word m (a + 8)
def setPrev (m : ByteMem) (a v : ℕ) : ByteMem := setWord m a v
def setNext (m : ByteMem) (a v : ℕ) : ByteMem := setWord m (a + 8) v

def ptr (v : ℕ) : Option ℕ := if v = 0 then none else some v

def nextPtr (m : ByteMem) (a : ℕ) : Option ℕ := ptr (next m a)
def prevPtr (m : ByteMem) (a : ℕ) : Option ℕ := ptr (prev m a)

theorem ptr_of_ne {v : ℕ} (h : v ≠ 0) : ptr v = some v := if_neg h

variable {K : Type*} {L : Layout K} {m m' m₁ : ByteMem}
  {a b v head node rounds curr : ℕ} {e : K} {l l₁ l₂ : List ℕ}

def Layout.Apart (L : Layout K) (a b : ℕ) : Prop := a + L.size ≤ b ∨ b + L.size ≤ a

theorem Layout.Apart.symm (h : L.Apart a b) : L.Apart b a := Or.comm.1 h

theorem Layout.Apart.ne (h : L.Apart a b) : a ≠ b := by
  have hsize := L.links_le
  rintro rfl
  rw [Layout.Apart] at h
  omega

def Layout.Fit (L : Layout K) (a b : ℕ) : Prop := a = b ∨ L.Apart a b

theorem Layout.fit_of_apart (L : Layout K) (h : L.Apart a b) : L.Fit a b := Or.inr h

def Layout.SameData (L : Layout K) (m m' : ByteMem) (a : ℕ) : Prop :=
  ∀ x, a + 16 ≤ x → x < a + L.size → m' x = m x

theorem Layout.SameData.trans (h : L.SameData m m₁ a) (h' : L.SameData m₁ m' a) : L.SameData m m' a :=
  fun x hlo hhi => (h' x hlo hhi).trans (h x hlo hhi)

theorem Layout.SameData.key (h : L.SameData m m' a) : L.key m' a = L.key m a := L.key_congr h

section Fit

variable (h : L.Fit a b)
include h

theorem sameData_setPrev : L.SameData m (setPrev m b v) a := by
  have hsize := L.links_le
  intro x hlo hhi
  apply setWord_outside
  rcases h with rfl | h
  · omega
  · rw [Layout.Apart] at h
    omega

theorem sameData_setNext : L.SameData m (setNext m b v) a := by
  have hsize := L.links_le
  intro x hlo hhi
  apply setWord_outside
  rcases h with rfl | h
  · omega
  · rw [Layout.Apart] at h
    omega

theorem next_setPrev : next (setPrev m b v) a = next m a := by
  have hsize := L.links_le
  apply word_setWord_apart
  rcases h with rfl | h
  · omega
  · rw [Layout.Apart] at h
    omega

theorem prev_setNext : prev (setNext m b v) a = prev m a := by
  have hsize := L.links_le
  apply word_setWord_apart
  rcases h with rfl | h
  · omega
  · rw [Layout.Apart] at h
    omega

end Fit

theorem next_setNext (hv : v < 2 ^ 64) : next (setNext m a v) a = v := word_setWord hv

theorem prev_setPrev (hv : v < 2 ^ 64) : prev (setPrev m a v) a = v := word_setWord hv

theorem next_setNext_apart (h : L.Apart a b) : next (setNext m b v) a = next m a := by
  have hsize := L.links_le
  rw [Layout.Apart] at h
  exact word_setWord_apart (by omega)

theorem prev_setPrev_apart (h : L.Apart a b) : prev (setPrev m b v) a = prev m a := by
  have hsize := L.links_le
  rw [Layout.Apart] at h
  exact word_setWord_apart (by omega)

theorem next_lt (m : ByteMem) (a : ℕ) : next m a < 2 ^ 64 := word_lt _ _

/-- Changes outside a node change neither its links nor its data. -/
theorem next_congr (h : ∀ x, a ≤ x → x < a + L.size → m' x = m x) : next m' a = next m a := by
  have hsize := L.links_le
  exact word_congr fun x hlo hhi => h x (by omega) (by omega)

theorem prev_congr (h : ∀ x, a ≤ x → x < a + L.size → m' x = m x) : prev m' a = prev m a := by
  have hsize := L.links_le
  exact word_congr fun x hlo hhi => h x hlo (by omega)

variable [LinearOrder K]

/-- The last node of a list whose key is less than `e`, as far as `n` steps go. -/
def walk (L : Layout K) (m : ByteMem) (e : K) : ℕ → ℕ → ℕ
  | 0, curr => curr
  | n + 1, curr =>
      if next m curr ≠ 0 ∧ L.key m (next m curr) < e then walk L m e n (next m curr) else curr

/-- The memory and the head after a node has been linked, and whether it is the head. -/
def link (L : Layout K) (m : ByteMem) (head node rounds : ℕ) : ByteMem × ℕ × Bool :=
  if head = 0 then (setNext (setPrev m node 0) node 0, node, true)
  else if L.key m node ≤ L.key m head then
    (setPrev (setPrev (setNext m node head) head node) node 0, node, true)
  else
    let curr := walk L m (L.key m node) rounds head
    (setPrev (setNext (setPrev (setNext m node (next m curr)) node curr) curr node) node node, head,
      false)

def unlink (m : ByteMem) (head : ℕ) : ByteMem :=
  if next m head ≠ 0 then setPrev m (next m head) 0 else m

def Layout.Le (L : Layout K) (m : ByteMem) (a b : ℕ) : Prop := L.key m a ≤ L.key m b

instance (m : ByteMem) : DecidableRel (L.Le m) := fun _ _ => inferInstanceAs (Decidable (_ ≤ _))

instance (m : ByteMem) : Std.Total (L.Le m) := ⟨fun _ _ => le_total _ _⟩

instance (m : ByteMem) : IsTrans ℕ (L.Le m) := ⟨fun _ _ _ => le_trans⟩

/-- The list of a head: a chain of nonnull nodes that are apart, in the order of their keys. -/
structure SortedList (L : Layout K) (m : ByteMem) (head : ℕ) (l : List ℕ) : Prop where
  chain : Chain (nextPtr m) (ptr head) l
  apart : l.Pairwise L.Apart
  sorted : l.Pairwise (L.Le m)
  nonnull : ∀ a ∈ l, 0 < a ∧ a < 2 ^ 64

theorem SortedList.congr (h : SortedList L m head l) (hn : ∀ a ∈ l, next m' a = next m a)
    (hk : ∀ a ∈ l, L.key m' a = L.key m a) : SortedList L m' head l := by
  refine ⟨h.chain.congr fun a ha => congrArg ptr (hn a ha), h.apart, ?_, h.nonnull⟩
  refine h.sorted.imp_of_mem fun {a b} ha hb hab => ?_
  rw [Layout.Le, hk a ha, hk b hb]
  exact hab

theorem SortedList.fit (h : SortedList L m head l) (ha : a ∈ l) (hb : b ∈ l) : L.Fit a b := by
  by_cases heq : a = b
  · exact Or.inl heq
  · have : Std.Symm L.Apart := ⟨fun _ _ hab => hab.symm⟩
    exact Or.inr (h.apart.forall ha hb heq)

theorem SortedList.eq_nil_iff (h : SortedList L m head l) : l = [] ↔ head = 0 := by
  have hc := h.chain
  constructor
  · rintro rfl
    by_contra hne
    rw [ptr_of_ne hne] at hc
    exact absurd hc (by simp [Chain])
  · rintro rfl
    cases l with
    | nil => rfl
    | cons a l => exact absurd hc.1 (by simp [ptr])

theorem SortedList.exists_cons (h : SortedList L m head l) (hne : head ≠ 0) : ∃ t, l = head :: t := by
  cases l with
  | nil => exact absurd (h.eq_nil_iff.1 rfl) hne
  | cons a t =>
      have hc := h.chain
      rw [ptr_of_ne hne] at hc
      exact ⟨t, by rw [Option.some.inj hc.1]⟩

theorem SortedList.tail (h : SortedList L m head (a :: l)) : SortedList L m (next m a) l :=
  ⟨h.chain.2, (List.pairwise_cons.1 h.apart).2, (List.pairwise_cons.1 h.sorted).2,
    fun b hb => h.nonnull b (List.mem_cons_of_mem a hb)⟩

/-- The loop stops at the last node whose key is less than `e`. -/
theorem walk_spec (h : SortedList L m curr (curr :: l)) (hfirst : L.key m curr < e)
    (hn : l.length ≤ rounds) : ∃ l₁ l₂, curr :: l = l₁ ++ walk L m e rounds curr :: l₂ ∧
      (∀ a ∈ l₁ ++ [walk L m e rounds curr], L.key m a < e) ∧ ∀ a ∈ l₂.head?, e ≤ L.key m a := by
  induction rounds generalizing curr l with
  | zero =>
      have hl := List.length_eq_zero_iff.1 (Nat.le_zero.1 hn)
      subst hl
      exact ⟨[], [], rfl, by simpa [walk] using hfirst, by simp⟩
  | succ n ih =>
      have htail := h.tail
      rw [walk]
      by_cases hgo : next m curr ≠ 0 ∧ L.key m (next m curr) < e
      · obtain ⟨t, rfl⟩ := htail.exists_cons hgo.1
        rw [if_pos hgo]
        obtain ⟨l₁, l₂, heq, hbefore, hafter⟩ := ih htail hgo.2 (by simpa using hn)
        refine ⟨curr :: l₁, l₂, by rw [heq]; rfl, ?_, hafter⟩
        rw [List.cons_append, List.forall_mem_cons]
        exact ⟨hfirst, hbefore⟩
      · rw [if_neg hgo]
        refine ⟨[], l, rfl, by simpa using hfirst, fun a ha => ?_⟩
        obtain ⟨t, rfl⟩ : ∃ t, l = a :: t := by
          cases l with
          | nil => exact absurd ha (by simp)
          | cons b t => exact ⟨t, by rw [Option.some.inj ha]⟩
        have hne : next m curr ≠ 0 := fun h0 => by
          have hnil := htail.eq_nil_iff.2 h0
          exact absurd hnil (by simp)
        obtain ⟨t', heq⟩ := htail.exists_cons hne
        have hnext : a = next m curr := (List.cons.inj heq).1
        rw [hnext]
        exact not_lt.1 fun hlt => hgo ⟨hne, hlt⟩

/-- Where an ordered insertion puts the new node. -/
theorem orderedInsert_split (hbefore : ∀ a ∈ l₁, L.key m a < L.key m node)
    (hafter : ∀ a ∈ l₂.head?, L.key m node ≤ L.key m a) :
    (l₁ ++ l₂).orderedInsert (L.Le m) node = l₁ ++ node :: l₂ := by
  induction l₁ with
  | nil =>
      cases l₂ with
      | nil => rfl
      | cons a t => exact List.orderedInsert_cons_of_le _ t (hafter a rfl)
  | cons b l₁ ih =>
      have hb : ¬ L.Le m node b := not_le.2 (hbefore b List.mem_cons_self)
      rw [List.cons_append, List.orderedInsert_of_not_le _ _ hb,
        ih fun a ha => hbefore a (List.mem_cons_of_mem b ha)]
      rfl

/-- What linking a new node does: its place in the list, and the data of the nodes. -/
structure Inserted (L : Layout K) (m : ByteMem) (head node : ℕ) (l : List ℕ) (r : ByteMem × ℕ × Bool) :
    Prop where
  list : SortedList L r.1 r.2.1 (l.orderedInsert (L.Le m) node)
  same : ∀ a ∈ node :: l, L.SameData m r.1 a

/-- What is left to show of an insertion: where the links lead. -/
theorem SortedList.insert {r : ByteMem × ℕ × Bool} (h : SortedList L m head l)
    (hnode : 0 < node ∧ node < 2 ^ 64) (hap : ∀ a ∈ l, L.Apart node a)
    (hchain : Chain (nextPtr r.1) (ptr r.2.1) (l.orderedInsert (L.Le m) node))
    (hsame : ∀ a ∈ node :: l, L.SameData m r.1 a) : Inserted L m head node l r := by
  have hperm := List.perm_orderedInsert (L.Le m) node l
  refine ⟨⟨hchain, ?_, ?_, ?_⟩, hsame⟩
  · refine (hperm.pairwise_iff fun {a b} hab => hab.symm).2 ?_
    exact List.pairwise_cons.2 ⟨hap, h.apart⟩
  · refine (h.sorted.orderedInsert (r := L.Le m) node l).imp_of_mem fun {a c} ha hc hac => ?_
    rw [Layout.Le, (hsame a (hperm.mem_iff.1 ha)).key, (hsame c (hperm.mem_iff.1 hc)).key]
    exact hac
  · intro a ha
    rcases List.mem_cons.1 (hperm.mem_iff.1 ha) with rfl | ha
    · exact hnode
    · exact h.nonnull a ha

theorem linked_empty (h : SortedList L m 0 l) (hnode : 0 < node ∧ node < 2 ^ 64) :
    Inserted L m 0 node l (setNext (setPrev m node 0) node 0, node, true) := by
  have hnil := h.eq_nil_iff.2 rfl
  subst hnil
  have hfit : L.Fit node node := Or.inl rfl
  refine h.insert hnode (fun a ha => absurd ha List.not_mem_nil) ⟨ptr_of_ne hnode.1.ne', ?_⟩ ?_
  · rw [nextPtr, next_setNext (by decide)]
    rfl
  · intro a ha
    rw [List.mem_singleton.1 ha]
    exact (sameData_setPrev hfit).trans (sameData_setNext hfit)

theorem linked_front (h : SortedList L m head l) (hhead : head ≠ 0)
    (hnode : 0 < node ∧ node < 2 ^ 64) (hap : ∀ a ∈ l, L.Apart node a)
    (hle : L.key m node ≤ L.key m head) : Inserted L m head node l
      (setPrev (setPrev (setNext m node head) head node) node 0, node, true) := by
  obtain ⟨t, rfl⟩ := h.exists_cons hhead
  have hfit : ∀ a ∈ node :: head :: t, L.Fit a node ∧ L.Fit a head := by
    intro a ha
    rcases List.mem_cons.1 ha with rfl | ha
    · exact ⟨Or.inl rfl, Or.inr (hap head List.mem_cons_self)⟩
    · exact ⟨Or.inr (hap a ha).symm, h.fit ha List.mem_cons_self⟩
  have hins : (head :: t).orderedInsert (L.Le m) node = node :: head :: t :=
    List.orderedInsert_cons_of_le _ t hle
  refine h.insert hnode hap ?_ fun a ha => ?_
  · rw [hins]
    refine ⟨ptr_of_ne hnode.1.ne', ?_⟩
    obtain ⟨h₁, h₂⟩ := hfit node List.mem_cons_self
    rw [nextPtr, next_setPrev h₁, next_setPrev h₂, next_setNext (h.nonnull head List.mem_cons_self).2]
    refine h.chain.congr fun a ha => congrArg ptr ?_
    obtain ⟨h₁, h₂⟩ := hfit a (List.mem_cons_of_mem node ha)
    rw [next_setPrev h₁, next_setPrev h₂, next_setNext_apart (hap a ha).symm]
  · obtain ⟨h₁, h₂⟩ := hfit a ha
    exact ((sameData_setNext h₁).trans (sameData_setPrev h₂)).trans (sameData_setPrev h₁)

theorem linked_behind (h : SortedList L m head (l₁ ++ curr :: l₂))
    (hnode : 0 < node ∧ node < 2 ^ 64) (hap : ∀ a ∈ l₁ ++ curr :: l₂, L.Apart node a)
    (hbefore : ∀ a ∈ l₁ ++ [curr], L.key m a < L.key m node)
    (hafter : ∀ a ∈ l₂.head?, L.key m node ≤ L.key m a) :
    Inserted L m head node (l₁ ++ curr :: l₂)
      (setPrev (setNext (setPrev (setNext m node (next m curr)) node curr) curr node) node node, head,
        false) := by
  have hcurr : curr ∈ l₁ ++ curr :: l₂ := List.mem_append_right _ List.mem_cons_self
  have hfit : ∀ a ∈ node :: (l₁ ++ curr :: l₂), L.Fit a node ∧ L.Fit a curr := by
    intro a ha
    rcases List.mem_cons.1 ha with rfl | ha
    · exact ⟨Or.inl rfl, Or.inr (hap curr hcurr)⟩
    · exact ⟨Or.inr (hap a ha).symm, h.fit ha hcurr⟩
  have hins : (l₁ ++ curr :: l₂).orderedInsert (L.Le m) node = l₁ ++ curr :: node :: l₂ := by
    have hsplit := orderedInsert_split hbefore hafter
    simpa only [List.append_assoc, List.singleton_append] using hsplit
  refine h.insert hnode hap ?_ fun a ha => ?_
  · rw [hins]
    have hself : L.Fit node node := Or.inl rfl
    refine h.chain.insert_after ?_ ?_ fun a ha => ?_
    · rw [nextPtr, next_setPrev (L.fit_of_apart (hap curr hcurr).symm), next_setNext hnode.2,
        ptr_of_ne hnode.1.ne']
    · refine congrArg ptr ?_
      rw [next_setPrev hself, next_setNext_apart (hap curr hcurr), next_setPrev hself,
        next_setNext (next_lt m curr)]
    · have hmem : a ∈ l₁ ++ curr :: l₂ :=
        (List.mem_append.1 ha).elim (List.mem_append_left _)
          fun ha => List.mem_append_right _ (List.mem_cons_of_mem curr ha)
      have hnodup : (l₁ ++ curr :: l₂).Nodup := h.chain.nodup
      have hne : a ≠ curr := by
        rintro rfl
        exact (List.nodup_middle.1 hnodup |> List.nodup_cons.1).1 ha
      have hac : L.Apart a curr := (h.fit hmem hcurr).resolve_left hne
      have han := (hap a hmem).symm
      refine congrArg ptr ?_
      rw [next_setPrev (L.fit_of_apart han), next_setNext_apart hac, next_setPrev (L.fit_of_apart han),
        next_setNext_apart han]
  · obtain ⟨h₁, h₂⟩ := hfit a ha
    exact (((sameData_setNext h₁).trans (sameData_setPrev h₁)).trans (sameData_setNext h₂)).trans
      (sameData_setPrev h₁)

/-- Linking a node is an ordered insertion. -/
theorem link_spec (h : SortedList L m head l) (hnode : 0 < node ∧ node < 2 ^ 64)
    (hap : ∀ a ∈ l, L.Apart node a) (hn : l.length ≤ rounds) :
    Inserted L m head node l (link L m head node rounds) := by
  rw [link]
  by_cases hhead : head = 0
  · subst hhead
    rw [if_pos rfl]
    exact linked_empty h hnode
  rw [if_neg hhead]
  by_cases hle : L.key m node ≤ L.key m head
  · rw [if_pos hle]
    exact linked_front h hhead hnode hap hle
  · rw [if_neg hle]
    obtain ⟨t, rfl⟩ := h.exists_cons hhead
    have hlen : t.length ≤ rounds := (Nat.le_succ _).trans hn
    obtain ⟨l₁, l₂, heq, hbefore, hafter⟩ := walk_spec h (not_le.1 hle) hlen
    rw [heq] at h hap ⊢
    exact linked_behind h hnode hap hbefore hafter

/-- The list from the head on is sorted, its first node has no predecessor, and every other points back to
the node before it. -/
def WellLinked (L : Layout K) (m : ByteMem) (head : ℕ) : Prop :=
  ∃ l, DChain (nextPtr m) (prevPtr m) none (ptr head) l ∧ l.Pairwise (L.Le m)

def AtHead (L : Layout K) (m : ByteMem) (head node : ℕ) : Prop := head = 0 ∨ L.key m node ≤ L.key m head

theorem wellLinked_empty (L : Layout K) (m : ByteMem) : WellLinked L m 0 :=
  ⟨[], rfl, List.Pairwise.nil⟩

theorem SortedList.wellLinked_iff (h : SortedList L m head l) :
    WellLinked L m head ↔ DChain (nextPtr m) (prevPtr m) none (ptr head) l := by
  constructor
  · rintro ⟨l', hc, -⟩
    rwa [hc.chain.unique h.chain] at hc
  · exact fun hc => ⟨l, hc, h.sorted⟩

theorem link_front_wellLinked (h : SortedList L m head l) (hnode : 0 < node ∧ node < 2 ^ 64)
    (hap : ∀ a ∈ l, L.Apart node a) (hn : l.length ≤ rounds) (hw : WellLinked L m head)
    (hat : AtHead L m head node) :
    WellLinked L (link L m head node rounds).1 (link L m head node rounds).2.1 := by
  have hins := link_spec h hnode hap hn
  have hc := h.wellLinked_iff.1 hw
  have hself : L.Fit node node := Or.inl rfl
  rw [hins.list.wellLinked_iff]
  by_cases hhead : head = 0
  · subst hhead
    have hnil := h.eq_nil_iff.2 rfl
    subst hnil
    rw [link, if_pos rfl]
    refine ⟨ptr_of_ne hnode.1.ne', ?_, ?_⟩
    · rw [prevPtr, prev_setNext hself, prev_setPrev (by decide)]
      rfl
    · rw [nextPtr, next_setNext (by decide)]
      rfl
  · have hle := hat.resolve_left hhead
    obtain ⟨t, rfl⟩ := h.exists_cons hhead
    have hhn := hap head List.mem_cons_self
    have hlt := (h.nonnull head List.mem_cons_self).2
    have hinsert : (head :: t).orderedInsert (L.Le m) node = node :: head :: t :=
      List.orderedInsert_cons_of_le _ t hle
    rw [link, if_neg hhead, if_pos hle, hinsert]
    simp only [ptr_of_ne hnode.1.ne']
    refine hc.push (fun hmem => (hap node hmem).ne rfl) ?_ ?_ (fun b hb => ?_) fun b hb => ?_
    · refine congrArg ptr ?_
      rw [next_setPrev hself, next_setPrev (L.fit_of_apart hhn), next_setNext hlt]
    · exact congrArg ptr (prev_setPrev (by decide))
    · refine congrArg ptr ?_
      have hbn := (hap b hb).symm
      rw [next_setPrev (L.fit_of_apart hbn), next_setPrev (h.fit hb List.mem_cons_self),
        next_setNext_apart hbn]
    · have hbn := (hap b hb).symm
      rw [prevPtr, prev_setPrev_apart hbn, ptr_of_ne hhead]
      by_cases hbh : head = b
      · subst hbh
        rw [if_pos rfl, prev_setPrev hnode.2, ptr_of_ne hnode.1.ne']
      · have hbhead : L.Apart b head := (h.fit hb List.mem_cons_self).resolve_left (Ne.symm hbh)
        rw [if_neg fun he => hbh (Option.some.inj he), prev_setPrev_apart hbhead,
          prev_setNext (L.fit_of_apart hbn)]
        rfl

/-- A node that is linked behind another one points back to itself. -/
theorem link_behind_not_wellLinked (h : SortedList L m head l) (hnode : 0 < node ∧ node < 2 ^ 64)
    (hap : ∀ a ∈ l, L.Apart node a) (hn : l.length ≤ rounds) (hat : ¬ AtHead L m head node) :
    ¬ WellLinked L (link L m head node rounds).1 (link L m head node rounds).2.1 := by
  have hins := link_spec h hnode hap hn
  have hmem : node ∈ l.orderedInsert (L.Le m) node :=
    (List.perm_orderedInsert (L.Le m) node l).mem_iff.2 List.mem_cons_self
  rw [AtHead, not_or] at hat
  rw [hins.list.wellLinked_iff]
  intro hc
  refine hc.prev_ne_self hmem ?_
  rw [link, if_neg hat.1, if_neg hat.2, prevPtr, prev_setPrev hnode.2]
  exact ptr_of_ne hnode.1.ne'

theorem unlink_sorted (h : SortedList L m head (head :: l)) :
    SortedList L (unlink m head) (next m head) l := by
  have htail := h.tail
  rw [unlink]
  split_ifs with hnext
  · obtain ⟨t, rfl⟩ := htail.exists_cons hnext
    have hfit : ∀ a ∈ next m head :: t, L.Fit a (next m head) := fun a ha =>
      htail.fit ha List.mem_cons_self
    exact htail.congr (fun a ha => next_setPrev (hfit a ha)) fun a ha => (sameData_setPrev (hfit a ha)).key
  · exact htail

theorem unlink_wellLinked (h : SortedList L m head (head :: l)) (hw : WellLinked L m head) :
    WellLinked L (unlink m head) (next m head) := by
  have htail := h.tail
  have hc := (h.wellLinked_iff.1 hw).2.2
  rw [(unlink_sorted h).wellLinked_iff]
  by_cases hnext : next m head = 0
  · have hnil := htail.eq_nil_iff.2 hnext
    rw [hnil, hnext]
    rfl
  · obtain ⟨t, rfl⟩ := htail.exists_cons hnext
    have hapart := List.pairwise_cons.1 htail.apart
    rw [unlink, if_pos hnext]
    obtain ⟨hfirst, -, hrest⟩ := hc
    have hself : L.Fit (next m head) (next m head) := Or.inl rfl
    refine ⟨hfirst, congrArg ptr (prev_setPrev (by decide)), ?_⟩
    rw [nextPtr, next_setPrev hself]
    refine hrest.congr (fun b hb => congrArg ptr ?_) fun b hb => congrArg ptr ?_
    · exact next_setPrev (L.fit_of_apart (hapart.1 b hb).symm)
    · exact prev_setPrev_apart (hapart.1 b hb).symm

end SortedLinks
