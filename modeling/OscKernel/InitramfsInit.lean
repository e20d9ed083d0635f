import OscKernel.CpioDecode
import OscKernel.InitramfsFiles

/-!
# Reading the archive into the initramfs

`initramfs_init` has its own loop over the headers, with the archive in the same memory as the blocks of
the heap. The archive is reserved, so that no block touches it. Then the loop adds the entries of the
archive in their order.
-/

namespace OscKernel.Vfs

open ByteMem (Has)
open Cpio (EntryAt Named Placed)
open Newc (Member Members)

variable {st st' : State} {T : Set ℕ} {root v a addr rounds : ℕ} {bs ms tl l : List UInt8} {e : Entry}
  {entry : Newc.Entry} {es : List Newc.Entry} {entries : List Entry} {beyond : ℕ → Beyond}

/-- What is on the stack behind the six bytes of `magic` and of `header_magic` when the two are compared.
Neither array has room for a terminator. -/
structure Beyond where
  magic : List UInt8
  headerMagic : List UInt8

def Beyond.Agree (b : Beyond) : Prop := Cpio.arrayStr b.magic = Cpio.arrayStr b.headerMagic

def MagicMatches (b : Beyond) (m : ByteMem) (a : ℕ) : Prop :=
  Cpio.strcmp (Cpio.arrayStr (Cpio.magic ++ b.magic))
    (Cpio.arrayStr (ByteMem.read m a 6 ++ b.headerMagic)) = 0

instance (b : Beyond) : Decidable b.Agree := inferInstanceAs (Decidable (_ = _))

instance (b : Beyond) (m : ByteMem) (a : ℕ) : Decidable (MagicMatches b m a) :=
  inferInstanceAs (Decidable (_ = _))

/-- The loop of `initramfs_init`, from the header at `header` on. It has no result when it does not end
within its rounds, writes through a null pointer, or when a name or the children have no room: a name
goes to `new_node->name` with a second terminator. -/
def initramfsInitLoop (beyond : ℕ → Beyond) (root : ℕ) : ℕ → ℕ → State → Option State
  | 0, _, _ => none
  | rounds + 1, header, st =>
      if MagicMatches (beyond header) st.mem header then do
        let filename ← Cpio.fileName st.mem header
        if Cpio.strcmp filename Cpio.trailer = 0 then some st
        else if maxFileName ≤ Cpio.nameSize st.mem header then none
        else if maxChildren ≤ (st.internal root).numChildren then none
        else do
          let data := ByteMem.read st.mem (Cpio.fileAddr st.mem header) (Cpio.fileSize st.mem header)
          let st' ← initramfsAddEntry st root ⟨filename, data⟩
          initramfsInitLoop beyond root rounds (Cpio.nextHeader st.mem header) st'
      else some st

def initramfsInitAt (beyond : ℕ → Beyond) (cpioAddr rounds : ℕ) (st : State) (root : ℕ) : Option State :=
  if root = 0 then none
  else
    initramfsInitLoop beyond root rounds cpioAddr
      (st.setNode (st.vnodes root).internal fun e => { e with type := .directory })

def terminated : ℕ → Beyond := fun _ => ⟨[0], [0]⟩

def reached (beyond : ℕ → Beyond) : ℕ → List Newc.Entry → List Newc.Entry
  | _, [] => []
  | a, e :: es =>
      if (beyond a).Agree then e :: reached beyond (a + Cpio.memberSize e) es else []

def entryOf (e : Newc.Entry) : Entry := ⟨e.name, e.data⟩

def Reserved (st : State) (a n : ℕ) : Prop := ∃ b ∈ st.heap.live, b.1 ≤ a ∧ a + n ≤ b.1 + b.2

theorem Reserved.mono {n : ℕ} (h : Reserved st a n) (a' n' : ℕ) (hlo : a ≤ a')
    (hhi : a' + n' ≤ a + n) : Reserved st a' n' := by
  obtain ⟨b, hb, h₁, h₂⟩ := h
  exact ⟨b, hb, by omega, by omega⟩

theorem KeepsBlocks.reserved {n : ℕ} (hk : KeepsBlocks st st') (h : Reserved st a n) :
    Reserved st' a n ∧ ∀ x, a ≤ x → x < a + n → st'.mem x = st.mem x := by
  obtain ⟨b, hb, h₁, h₂⟩ := h
  exact ⟨⟨b, hk.1 b hb, h₁, h₂⟩, fun x hlo hhi => hk.2 b hb x (by omega) (by omega)⟩

theorem has_of_same {m m' : ByteMem} (h : Has m a bs)
    (hsame : ∀ x, a ≤ x → x < a + bs.length → m' x = m x) : Has m' a bs := by
  rw [Has, ByteMem.read_congr _ _ hsame]
  exact h

/-- A reserved archive stays in place. -/
theorem KeepsBlocks.placed (hk : KeepsBlocks st st') (h : Placed st.mem addr es bs)
    (hres : Reserved st addr bs.length) : Placed st'.mem addr es bs ∧ Reserved st' addr bs.length := by
  obtain ⟨hres', hsame⟩ := hk.reserved hres
  exact ⟨⟨h.archive, h.named, h.size, h.place, has_of_same h.bytes hsame⟩, hres'⟩

/-- At a header the check is about what is behind the arrays. -/
theorem magicMatches_iff {b : Beyond} {m : ByteMem} (h : ByteMem.read m a 6 = Cpio.magic) :
    MagicMatches b m a ↔ b.Agree := by
  have hnul : (0 : UInt8) ∉ Cpio.magic := by decide
  rw [MagicMatches, h, Cpio.strcmp_eq_zero (Cpio.arrayStr_nul _) (Cpio.arrayStr_nul _),
    Cpio.arrayStr_append hnul, Cpio.arrayStr_append hnul, List.append_cancel_left_eq, Beyond.Agree]

theorem initramfsInitLoop_stops (h : EntryAt st.mem a entry) (hno : ¬ (beyond a).Agree) :
    initramfsInitLoop beyond root (rounds + 1) a st = some st := by
  rw [initramfsInitLoop, if_neg (mt (magicMatches_iff h.magic).1 hno)]

theorem initramfsInitLoop_trailer (h : EntryAt st.mem a entry) (hname : entry.name = Cpio.trailer) :
    initramfsInitLoop beyond root (rounds + 1) a st = some st := by
  by_cases hagree : (beyond a).Agree
  swap
  · exact initramfsInitLoop_stops h hagree
  have htrailer : Cpio.strcmp entry.name Cpio.trailer = 0 := by
    rw [hname]
    decide
  simp only [initramfsInitLoop, if_pos ((magicMatches_iff h.magic).2 hagree), h.name, Option.bind_eq_bind,
    Option.bind_some, if_pos htrailer]

theorem initramfsInitLoop_entry (h : EntryAt st.mem a entry) (hname : Named entry)
    (hagree : (beyond a).Agree) (hsize : Cpio.nameSize st.mem a < maxFileName)
    (hroom : (st.internal root).numChildren < maxChildren) :
    initramfsInitLoop beyond root (rounds + 1) a st =
      (initramfsAddEntry st root (entryOf entry)).bind
        (initramfsInitLoop beyond root rounds (a + Cpio.memberSize entry)) := by
  have htrailer : ¬ Cpio.strcmp entry.name Cpio.trailer = 0 := by
    rw [Cpio.strcmp_eq_zero hname.noNul (by decide)]
    exact hname.notTrailer
  have hnext : Cpio.nextHeader st.mem a = a + Cpio.memberSize entry := by
    rw [h.next, Cpio.memberSize, Nat.add_assoc]
  have hdata : ByteMem.read st.mem (Cpio.fileAddr st.mem a) entry.data.length = entry.data := h.data
  simp only [initramfsInitLoop, if_pos ((magicMatches_iff h.magic).2 hagree), h.name, Option.bind_eq_bind,
    Option.bind_some, if_neg htrailer, if_neg (not_le.2 hsize), if_neg (not_le.2 hroom), hnext, h.fileSize,
    hdata]
  rfl

theorem nameSize_member (h : Member entry l) (hat : Has st.mem a l) (hname : Named entry) :
    Cpio.nameSize st.mem a = entry.name.length + 1 := by
  obtain ⟨front, pad, hfront, -, rfl⟩ := h
  obtain ⟨hat, -⟩ := ByteMem.has_append.1 hat
  obtain ⟨hat, -⟩ := ByteMem.has_append.1 hat
  exact (Cpio.read_front hfront hat hname.noNul hname.fits).2.1

structure Readable (st : State) (root a : ℕ) (es : List Newc.Entry) (ms tl : List UInt8) : Prop where
  bytes : Has st.mem a (ms ++ tl)
  reserved : Reserved st a (ms ++ tl).length
  size : (ms ++ tl).length < 2 ^ 32
  place : a + (ms ++ tl).length < 2 ^ 64
  named : ∀ e ∈ es, Named e ∧ e.name.length + 1 < maxFileName
  room : (st.internal root).numChildren + es.length ≤ maxChildren

theorem Readable.next (h : Readable st root a (entry :: es) (l ++ ms) tl) (ht : Tree st T)
    (hroot : root ∈ T) (hl : Member entry l) {st₁ : State}
    (ha : Added st st₁ root v (entryOf entry)) :
    Readable st₁ root (a + Cpio.memberSize entry) es ms tl := by
  have hkeeps := ha.keeps ht hroot
  have hint := (ha.dir ht hroot).2
  have hbytes := h.bytes
  have hsize := h.size
  have hplace := h.place
  have hroom := h.room
  rw [List.append_assoc, List.length_append] at hsize hplace
  rw [List.append_assoc] at hbytes
  have hlen : (l ++ ms ++ tl).length = l.length + (ms ++ tl).length := by
    rw [List.append_assoc, List.length_append]
  rw [Cpio.memberSize_eq hl]
  have hres := h.reserved.mono (a + l.length) (ms ++ tl).length (by omega) (by omega)
  obtain ⟨hres', hsame⟩ := hkeeps.blocks.reserved hres
  refine ⟨has_of_same (ByteMem.has_append.1 hbytes).2 hsame, hres', by omega, by omega,
    fun e he => h.named e (List.mem_cons_of_mem _ he), ?_⟩
  rw [hint]
  change (st.internal root).numChildren + 1 + es.length ≤ maxChildren
  rw [List.length_cons] at hroom
  omega

theorem reached_front (beyond : ℕ → Beyond) (a : ℕ) (es : List Newc.Entry) : reached beyond a es <+: es := by
  induction es generalizing a with
  | nil => exact List.prefix_rfl
  | cons e es ih =>
      rw [reached]
      split_ifs
      · exact List.cons_prefix_cons.2 ⟨rfl, ih _⟩
      · exact List.nil_prefix

/-- The loop adds the entries that it reaches in their order. -/
theorem initramfsInitLoop_eq (h : Readable st root a es ms tl) (ht : Tree st T) (hroot : root ∈ T)
    (hms : Members es ms) (htl : Member ⟨Newc.trailerName, []⟩ tl) (hrounds : es.length < rounds) :
    initramfsInitLoop beyond root rounds a st =
      ((reached beyond a es).map entryOf).foldlM (fun st e => initramfsAddEntry st root e) st := by
  induction hms generalizing st T a rounds with
  | nil =>
      obtain ⟨rounds, rfl⟩ : ∃ n, rounds = n + 1 := ⟨rounds - 1, by omega⟩
      have hat := h.bytes
      have hsize := h.size
      have hplace := h.place
      rw [List.nil_append] at hat hsize hplace
      exact initramfsInitLoop_trailer (Cpio.entryAt htl hat (by decide) (by decide) hsize hplace) rfl
  | @cons e es l ms hl hms ih =>
      obtain ⟨rounds, rfl⟩ : ∃ n, rounds = n + 1 := ⟨rounds - 1, by simp at hrounds; omega⟩
      obtain ⟨hname, hshort⟩ := h.named e List.mem_cons_self
      have hat := h.bytes
      have hsize := h.size
      have hplace := h.place
      have hroom := h.room
      rw [List.append_assoc, List.length_append] at hsize hplace
      rw [List.append_assoc] at hat
      rw [List.length_cons] at hroom
      obtain ⟨hatl, -⟩ := ByteMem.has_append.1 hat
      have hentry := Cpio.entryAt hl hatl hname.noNul hname.fits (by omega) (by omega)
      have hns := nameSize_member hl hatl hname
      rw [reached]
      by_cases hagree : (beyond a).Agree
      swap
      · rw [if_neg hagree]
        exact initramfsInitLoop_stops hentry hagree
      rw [if_pos hagree, initramfsInitLoop_entry hentry hname hagree (by omega) (by omega), List.map_cons,
        List.foldlM_cons]
      cases hadd : initramfsAddEntry st root (entryOf e) with
      | none => rfl
      | some st₁ =>
          have hdata : (entryOf e).data.length < 2 ^ 32 := by
            have hlen := hl.length
            change e.data.length < 2 ^ 32
            omega
          obtain ⟨v, ha⟩ := initramfsAddEntry_added ht hroot hdata hadd
          have hg := ha.grows ht hroot
          exact ih (h.next ht hroot hl ha) hg.tree (hg.subset hroot) (by simpa using hrounds)

/-- `initramfs_init` reads a reserved archive as the list of the entries that it reaches. -/
theorem initramfsInitAt_eq (h : Placed st.mem addr es bs) (hres : Reserved st addr bs.length)
    (ht : Tree st T) (hroot : root ∈ T) (hshort : ∀ e ∈ es, e.name.length + 1 < maxFileName)
    (hroom : (st.internal root).numChildren + es.length ≤ maxChildren) (hrounds : es.length < rounds) :
    initramfsInitAt beyond addr rounds st root =
      initramfsInit st root ((reached beyond addr es).map entryOf) := by
  obtain ⟨⟨ms, tl, hms, htl, rfl⟩, hnamed, hsize, hplace, hbytes⟩ := h
  have hnum : ((st.setNode (st.vnodes root).internal fun e => { e with type := .directory }).internal
      root).numChildren = (st.internal root).numChildren := by
    rw [State.internal_setNode_self]
  rw [initramfsInitAt, initramfsInit, if_neg (ht.ne_zero hroot), if_neg (ht.ne_zero hroot)]
  refine initramfsInitLoop_eq ⟨hbytes, hres, hsize, by omega, fun e he => ⟨hnamed e he, hshort e he⟩, ?_⟩
    (setDirectory_grows ht root).tree hroot hms htl hrounds
  rw [hnum]
  exact hroom

/-- An empty root gets the files of the entries. -/
theorem initramfsInit_filled (h : Tree st T) (hroot : root ∈ T) (hempty : (st.internal root).numChildren = 0)
    (hlen : ∀ e ∈ entries, e.data.length < 2 ^ 32) (heq : initramfsInit st root entries = some st') :
    ∃ T' vs, Grows st st' T T' ∧ Filled st' T' root entries vs ∧ Keeps st st' T root ∧
      ∀ w ∈ T', w ∈ T ∨ w ∈ vs := by
  rw [initramfsInit, if_neg (h.ne_zero hroot)] at heq
  have hdir := setDirectory_grows h root
  have hself := st.internal_setNode_self root fun e => { e with type := .directory }
  have hfilled : Filled (st.setNode (st.vnodes root).internal fun e => { e with type := .directory }) T root
      [] [] := by
    refine ⟨hroot, ?_, fun _ h => absurd h List.not_mem_nil, ?_, List.Forall₂.nil⟩
    · rw [hself]
    · rw [childList, hself, hempty]
      rfl
  have hkeeps : Keeps st (st.setNode (st.vnodes root).internal fun e => { e with type := .directory }) T
      root := by
    refine ⟨fun _ _ => rfl, fun w hw hne => ?_, fun _ hb => hb, fun _ _ _ _ _ => rfl⟩
    exact State.internal_setNode_of_ne _ _ fun heq => hne (h.node_inj w hw root hroot heq)
  obtain ⟨T', vs, hg, hf, hk, hnew⟩ := hfilled.addEntries hdir.tree hlen heq
  exact ⟨T', vs, hdir.trans hg, hf, hkeeps.trans hk Set.Subset.rfl, hnew⟩

end OscKernel.Vfs
