import Mathlib.Data.List.TakeWhile
import OscKernel.Cpio

/-!
# Reading back an archive

On a newc archive the loop visits the entries in their order, each with its header, its name and its data,
and ends at the trailer. So `cpio_list` sends the names, and the other functions find the first entry with
the name they look for.
-/

namespace OscKernel.Cpio

open ByteMem
open Newc (Entry Front Member Members Archive DataAt Field)

variable {m : ByteMem} {a addr v rounds size : ℕ} {l bs s t name : List UInt8} {e : Entry}
  {es : List Entry} {σ ρ : Type}

theorem strcmp_eq_zero (hs : (0 : UInt8) ∉ s) (ht : (0 : UInt8) ∉ t) : strcmp s t = 0 ↔ s = t := by
  induction s generalizing t with
  | nil =>
      cases t with
      | nil => simp [strcmp]
      | cons d t =>
          have hd : d ≠ 0 := fun h => ht (h ▸ List.mem_cons_self)
          have hd' : d.toNat ≠ 0 := fun h => hd (UInt8.toNat_inj.1 h)
          simp only [strcmp, reduceCtorEq, iff_false]
          omega
  | cons c s ih =>
      have hc : c ≠ 0 := fun h => hs (h ▸ List.mem_cons_self)
      have hc' : c.toNat ≠ 0 := fun h => hc (UInt8.toNat_inj.1 h)
      cases t with
      | nil =>
          simp only [strcmp, reduceCtorEq, iff_false]
          omega
      | cons d t =>
          by_cases hcd : c = d
          · subst hcd
            rw [strcmp, if_pos rfl, ih (fun h => hs (List.mem_cons_of_mem _ h))
              (fun h => ht (List.mem_cons_of_mem _ h)), List.cons.injEq]
            exact (and_iff_right rfl).symm
          · have hne : c.toNat ≠ d.toNat := fun h => hcd (UInt8.toNat_inj.1 h)
            rw [strcmp, if_neg hcd, List.cons.injEq]
            refine iff_of_false (by omega) fun h => hcd h.1

theorem hexDigit_hexChar : ∀ d < 16, ∀ upper, hexDigit (Newc.hexChar upper d) = d := by decide

theorem hexToUintLoop_digits {ds : List (ℕ × Bool)} (hd : ∀ d ∈ ds, d.1 < 16)
    (hat : Has m a (ds.map fun d => Newc.hexChar d.2 d.1)) (hv : (v + 1) * 16 ^ ds.length ≤ 2 ^ 32) :
    hexToUintLoop m a ds.length v = Newc.value v ds := by
  induction ds generalizing a v with
  | nil => rfl
  | cons d ds ih =>
      obtain ⟨hm, hat⟩ := has_cons.1 hat
      have hd16 := hd d List.mem_cons_self
      rw [List.length_cons, pow_succ] at hv
      have hpos : 0 < 16 ^ ds.length := by positivity
      have hv' : (v * 16 + d.1 + 1) * 16 ^ ds.length ≤ 2 ^ 32 := by
        refine le_trans ?_ hv
        calc (v * 16 + d.1 + 1) * 16 ^ ds.length ≤ ((v + 1) * 16) * 16 ^ ds.length :=
              Nat.mul_le_mul_right _ (by omega)
          _ = (v + 1) * (16 ^ ds.length * 16) := by ring
      have hsmall : v * 16 + d.1 + 1 ≤ 2 ^ 32 := le_trans (Nat.le_mul_of_pos_right _ hpos) hv'
      rw [List.length_cons, hexToUintLoop, hm, hexDigit_hexChar d.1 hd16, Nat.mod_eq_of_lt (by omega),
        Nat.mod_eq_of_lt (by omega), ih (fun x hx => hd x (List.mem_cons_of_mem _ hx)) hat hv']
      rfl

/-- The field of a header is read back. -/
theorem hexToUint_field (h : Field v l) (hat : Has m a l) : hexToUint m a 8 = v := by
  obtain ⟨ds, hlen, hd, rfl, rfl⟩ := h
  rw [hexToUint, ← hlen]
  exact hexToUintLoop_digits hd hat (by rw [hlen]; decide)

theorem and_not_three (x : BitVec 32) : x &&& ~~~3#32 = (x >>> 2) <<< 2 := by
  ext i hi
  by_cases h : i < 2
  · obtain rfl | rfl : i = 0 ∨ i = 1 := by omega
    · simp
    · simp
  · have h3 : (3#32)[i] = false := by
      rw [BitVec.getElem_eq_testBit_toNat]
      exact Nat.testBit_lt_two_pow ((by decide : 3 < 2 ^ 2).trans_le
        (Nat.pow_le_pow_right (by decide) (by omega)))
    have hi2 : 2 + (i - 2) = i := by omega
    rw [BitVec.getElem_and, BitVec.getElem_not, h3]
    simp [h, hi2, BitVec.getLsbD_eq_getElem hi]

/-- `align` rounds up to a multiple of four. -/
theorem align_four {n : ℕ} (h : n + 3 < 2 ^ 32) : (align (BitVec.ofNat 32 n) 4).toNat = (n + 3) / 4 * 4 := by
  have hn : BitVec.ofNat 32 n + 4 - 1 = BitVec.ofNat 32 (n + 3) := by bv_omega
  have hadd : (BitVec.ofNat 32 (n + 3)).toNat = n + 3 := by
    rw [BitVec.toNat_ofNat, Nat.mod_eq_of_lt h]
  change ((BitVec.ofNat 32 n + 4 - 1) &&& ~~~3#32).toNat = _
  rw [hn, and_not_three, BitVec.toNat_shiftLeft, BitVec.toNat_ushiftRight, hadd,
    Nat.shiftRight_eq_div_pow, Nat.shiftLeft_eq, Nat.mod_eq_of_lt (by omega)]

structure EntryAt (m : ByteMem) (a : ℕ) (e : Entry) : Prop where
  magic : ByteMem.read m a 6 = magic
  name : fileName m a = some e.name
  fileSize : fileSize m a = e.data.length
  fileAddr : fileAddr m a = a + (headerSize + (e.name.length + 1) + 3) / 4 * 4
  data : Has m (Cpio.fileAddr m a) e.data
  next : nextHeader m a = a + (headerSize + (e.name.length + 1) + 3) / 4 * 4 + (e.data.length + 3) / 4 * 4

theorem arrayStr_nul (l : List UInt8) : (0 : UInt8) ∉ arrayStr l := by
  intro h
  have := List.mem_takeWhile_imp h
  simp at this

theorem arrayStr_append (h : (0 : UInt8) ∉ s) (t : List UInt8) : arrayStr (s ++ t) = s ++ arrayStr t := by
  have hall : ∀ b ∈ s, decide (b ≠ 0) = true := fun b hb => by
    have hne : b ≠ 0 := fun h0 => h (h0 ▸ hb)
    simpa using hne
  exact List.takeWhile_append_of_pos hall

theorem arrayStr_terminated (h : (0 : UInt8) ∉ s) : arrayStr (s ++ [0]) = s := by
  rw [arrayStr_append h, arrayStr]
  simp

/-- The fields in the front of a member, and its name with the terminator. -/
theorem read_fields (h : Front name size l) (hat : Has m a l) :
    read m a 6 = magic ∧ nameSize m a = name.length + 1 ∧ fileSize m a = size ∧
      read m (a + headerSize) (nameSize m a) = name ++ [0] := by
  obtain ⟨ids, filesize, devs, namesize, check, pad, hids, hfile, hdevs, hnames, hcheck, -, rfl⟩ := h
  have hmagic : Newc.magic.length = 6 := rfl
  obtain ⟨hat, -⟩ := has_append.1 hat
  obtain ⟨hat, hatn⟩ := has_append.1 hat
  simp only [has_append, List.length_append, hids, hfile.length, hdevs, hnames.length, hcheck,
    hmagic] at hat hatn
  obtain ⟨⟨⟨⟨⟨hatm, -⟩, hatf⟩, -⟩, hats⟩, -⟩ := hat
  have hns : nameSize m a = name.length + 1 := hexToUint_field hnames hats
  refine ⟨hatm, hns, hexToUint_field hfile hatf, ?_⟩
  have hterm : Has m (a + headerSize) (name ++ [0]) := has_append.2 hatn
  rwa [Has, List.length_append, List.length_singleton, ← hns] at hterm

/-- What the loop reads in the front of a member. -/
theorem read_front (h : Front name size l) (hat : Has m a l) (hname : (0 : UInt8) ∉ name)
    (hlen : name.length ≤ 255) :
    read m a 6 = magic ∧ nameSize m a = name.length + 1 ∧ fileSize m a = size ∧ fileName m a = some name := by
  obtain ⟨hmagic, hns, hfile, hread⟩ := read_fields h hat
  refine ⟨hmagic, hns, hfile, ?_⟩
  have hfits : ¬ (256 < nameSize m a ∨ (0 : UInt8) ∉ name ++ [0]) := by
    rw [hns]
    simp
    omega
  rw [fileName, hread, if_neg hfits, arrayStr_terminated hname]

/-- A member of an archive in memory. -/
theorem entryAt (h : Member e l) (hat : Has m a l) (hname : (0 : UInt8) ∉ e.name)
    (hlen : e.name.length ≤ 255) (hsize : l.length < 2 ^ 32) (hend : a + l.length < 2 ^ 64) :
    EntryAt m a e := by
  have hl := h.length
  obtain ⟨front, pad, hfront, -, rfl⟩ := h
  obtain ⟨hat, -⟩ := has_append.1 hat
  obtain ⟨hatf, hatd⟩ := has_append.1 hat
  obtain ⟨hmagic, hns, hfs, hfn⟩ := read_front hfront hatf hname hlen
  have hhdr : headerSize = 110 := rfl
  have hhdr' : Newc.headerSize = 110 := rfl
  have hnamepad : (align (BitVec.ofNat 32 (headerSize + nameSize m a)) 4).toNat =
      (headerSize + (e.name.length + 1) + 3) / 4 * 4 := by
    rw [hns, align_four (by omega)]
  have hdatapad : (align (BitVec.ofNat 32 (fileSize m a)) 4).toNat = (e.data.length + 3) / 4 * 4 := by
    rw [hfs, align_four (by omega)]
  have hfa : fileAddr m a = a + (headerSize + (e.name.length + 1) + 3) / 4 * 4 := by
    rw [fileAddr, hnamepad, Nat.mod_eq_of_lt (by omega)]
  refine ⟨hmagic, hfn, hfs, hfa, ?_, ?_⟩
  · rw [hfa]
    rwa [hfront.length_eq] at hatd
  · simp only [nextHeader, hnamepad, hdatapad]
    omega

def memberSize (e : Entry) : ℕ :=
  (headerSize + (e.name.length + 1) + 3) / 4 * 4 + (e.data.length + 3) / 4 * 4

theorem memberSize_eq (h : Member e l) : memberSize e = l.length := h.length.symm

/-- The visits of the loop to the members from `a` on, up to the one that returns. -/
def visitAll (visit : ℕ → Entry → σ → σ ⊕ ρ) : ℕ → List Entry → σ → σ ⊕ ρ
  | _, [], s => .inl s
  | a, e :: es, s =>
      match visit a e s with
      | .inr r => .inr r
      | .inl s => visitAll visit (a + memberSize e) es s

structure Named (e : Entry) : Prop where
  nonempty : e.name ≠ []
  noNul : (0 : UInt8) ∉ e.name
  notTrailer : e.name ≠ trailer
  fits : e.name.length ≤ 255

section walk

variable {f : ℕ → List UInt8 → σ → σ ⊕ ρ} {atEnd : σ → ρ} {invalid : List UInt8 → σ → ρ} {s : σ}

theorem walk_trailer (h : EntryAt m a e) (hname : e.name = trailer) :
    walk m f atEnd invalid (rounds + 1) a s = some (atEnd s) := by
  have hmagic : strcmp magic (arrayStr (read m a 6)) = 0 := by
    rw [h.magic]
    decide
  have htrailer : strcmp e.name trailer = 0 := by
    rw [hname]
    decide
  simp only [walk, if_pos hmagic, h.name, Option.bind_eq_bind, Option.bind_some, if_pos htrailer]

theorem walk_entry (h : EntryAt m a e) (hname : Named e) :
    walk m f atEnd invalid (rounds + 1) a s =
      (f a e.name s).elim (walk m f atEnd invalid rounds (a + memberSize e)) some := by
  have hmagic : strcmp magic (arrayStr (read m a 6)) = 0 := by
    rw [h.magic]
    decide
  have htrailer : ¬ strcmp e.name trailer = 0 := by
    rw [strcmp_eq_zero hname.noNul (by decide)]
    exact hname.notTrailer
  have hnext : nextHeader m a = a + memberSize e := by
    rw [h.next, memberSize, Nat.add_assoc]
  simp only [walk, if_pos hmagic, h.name, Option.bind_eq_bind, Option.bind_some, if_neg htrailer, hnext]
  cases f a e.name s <;> rfl

/-- On an archive the loop visits the entries in their order. -/
theorem walk_archive {visit : ℕ → Entry → σ → σ ⊕ ρ} (h : Archive es bs) (hat : Has m a bs)
    (hnamed : ∀ e ∈ es, Named e) (hsize : bs.length < 2 ^ 32) (hend : a + bs.length < 2 ^ 64)
    (hvisit : ∀ a, ∀ e ∈ es, EntryAt m a e → ∀ s, f a e.name s = visit a e s) (hrounds : es.length < rounds) :
    walk m f atEnd invalid rounds a s = some ((visitAll visit a es s).elim atEnd id) := by
  obtain ⟨ms, tl, hms, htl, rfl⟩ := h
  obtain ⟨rounds, rfl⟩ : ∃ n, rounds = n + 1 := ⟨rounds - 1, by omega⟩
  induction hms generalizing a s rounds with
  | nil =>
      rw [List.nil_append] at hat hsize hend
      rw [walk_trailer (entryAt htl hat (by decide) (by decide) hsize hend) rfl]
      rfl
  | @cons e es l bs hl hms ih =>
      rw [List.append_assoc] at hat hsize hend
      rw [List.length_append] at hsize hend
      obtain ⟨hatl, hatr⟩ := has_append.1 hat
      have hne := hnamed e List.mem_cons_self
      have hentry := entryAt hl hatl hne.noNul hne.fits (by omega) (by omega)
      obtain ⟨rounds, rfl⟩ : ∃ n, rounds = n + 1 := ⟨rounds - 1, by simp at hrounds; omega⟩
      rw [← memberSize_eq hl] at hatr hend
      rw [walk_entry hentry hne, hvisit a e List.mem_cons_self hentry, visitAll]
      cases hv : visit a e s with
      | inr r => rfl
      | inl s' =>
          exact ih (fun x hx => hnamed x (List.mem_cons_of_mem _ hx))
            (fun a x hx => hvisit a x (List.mem_cons_of_mem _ hx)) hatr (by omega) (by omega) rounds
            (by simpa using hrounds)

end walk

structure Placed (m : ByteMem) (addr : ℕ) (es : List Entry) (bs : List UInt8) : Prop where
  archive : Archive es bs
  named : ∀ e ∈ es, Named e
  size : bs.length < 2 ^ 32
  place : addr < 2 ^ 32
  bytes : Has m addr bs

theorem Placed.data_lt (h : Placed m addr es bs) (he : e ∈ es) : e.data.length < 2 ^ 32 := by
  obtain ⟨ms, tl, hms, -, rfl⟩ := h.archive
  obtain ⟨es₁, es₂, rfl⟩ := List.append_of_mem he
  obtain ⟨ms₁, l, ms₂, -, hl, rfl⟩ := hms.split
  have hlen := hl.length
  have hsize := h.size
  simp only [List.length_append] at hsize
  omega

theorem Placed.runs (h : Placed m addr es bs) {f : ℕ → List UInt8 → σ → σ ⊕ ρ}
    {visit : ℕ → Entry → σ → σ ⊕ ρ} {atEnd : σ → ρ} {invalid : List UInt8 → σ → ρ} {s : σ}
    (hvisit : ∀ a, ∀ e ∈ es, EntryAt m a e → ∀ s, f a e.name s = visit a e s) (hrounds : es.length < rounds) :
    walk m f atEnd invalid rounds addr s = some ((visitAll visit addr es s).elim atEnd id) := by
  have hsize := h.size
  have haddr := h.place
  exact walk_archive h.archive h.bytes h.named hsize (by omega) hvisit hrounds

def lookFor (t : List UInt8) (found : ℕ → ρ) (a : ℕ) (e : Entry) (_ : Unit) : Unit ⊕ ρ :=
  if e.name = t then .inr (found a) else .inl ()

theorem visitAll_absent {found : ℕ → ρ} (h : ∀ e ∈ es, e.name ≠ t) :
    visitAll (lookFor t found) a es () = .inl () := by
  induction es generalizing a with
  | nil => rfl
  | cons e es ih =>
      rw [visitAll, lookFor, if_neg (h e List.mem_cons_self)]
      exact ih fun x hx => h x (List.mem_cons_of_mem _ hx)

theorem visitAll_first {found : ℕ → ρ} {es₁ es₂ : List Entry} (hms : Members es₁ bs)
    (h : ∀ e ∈ es₁, e.name ≠ t) (he : e.name = t) :
    visitAll (lookFor t found) a (es₁ ++ e :: es₂) () = .inr (found (a + bs.length)) := by
  induction hms generalizing a with
  | nil =>
      rw [List.nil_append, visitAll, lookFor, if_pos he]
      rfl
  | @cons x es₁ l bs hl hms ih =>
      rw [List.cons_append, visitAll, lookFor, if_neg (h x List.mem_cons_self), memberSize_eq hl,
        List.length_append, ← Nat.add_assoc]
      exact ih fun y hy => h y (List.mem_cons_of_mem _ hy)

theorem Placed.searches (h : Placed m addr es bs) (ht : (0 : UInt8) ∉ t) (hrounds : es.length < rounds)
    (found : ℕ → ρ) (none : List Out → ρ) : search m t found none addr rounds =
      some ((visitAll (lookFor t found) addr es ()).elim (fun _ => none (missing t)) id) := by
  refine h.runs (fun a e he _ s => ?_) hrounds
  simp only [lookFor, strcmp_eq_zero (h.named e he).noNul ht]

/-- The search ends at the first entry with the name. -/
theorem Placed.search_first (h : Placed m addr es bs) (ht : (0 : UInt8) ∉ t) (hrounds : es.length < rounds)
    (he : es.find? (fun e => e.name = t) = some e) :
    ∃ header pos, DataAt t es bs pos e.data ∧ EntryAt m header e ∧ fileAddr m header = addr + pos ∧
      ∀ (ρ : Type) (found : ℕ → ρ) (none : List Out → ρ),
        search m t found none addr rounds = some (found header) := by
  obtain ⟨hname, es₁, es₂, rfl, hfirst⟩ := List.find?_eq_some_iff_append.1 he
  have hname : e.name = t := by simpa using hname
  have hfirst : ∀ x ∈ es₁, x.name ≠ t := fun x hx => by simpa using hfirst x hx
  obtain ⟨ms, tl, hms, -, rfl⟩ := h.archive
  obtain ⟨ms₁, l, ms₂, hms₁, hl, rfl⟩ := hms.split
  have hmem : e ∈ es₁ ++ e :: es₂ := List.mem_append_right _ List.mem_cons_self
  have hsize := h.size
  have haddr := h.place
  have hbytes := h.bytes
  simp only [List.append_assoc, List.length_append] at hbytes hsize
  obtain ⟨-, hat⟩ := has_append.1 hbytes
  obtain ⟨hat, -⟩ := has_append.1 hat
  have hentry := entryAt hl hat (h.named e hmem).noNul (h.named e hmem).fits (by omega) (by omega)
  obtain ⟨front, pad, hfront, -, rfl⟩ := hl
  refine ⟨addr + ms₁.length, ms₁.length + front.length, ⟨es₁, e, es₂, ms₁, front, pad ++ (ms₂ ++ tl), rfl,
    hfirst, hname, rfl, hms₁, hname ▸ hfront, ?_, rfl⟩, hentry, ?_, fun ρ found none => ?_⟩
  · simp only [List.append_assoc]
  · rw [hentry.fileAddr, hfront.length_eq, Nat.add_assoc]
    rfl
  · rw [h.searches ht hrounds, visitAll_first hms₁ hfirst hname]
    rfl

theorem visitAll_list {out : List Out} :
    visitAll (ρ := List Out) (fun _ e out => .inl (out ++ [.puts e.name, .puts crlf])) a es out =
      .inl (out ++ es.flatMap fun e => [.puts e.name, .puts crlf]) := by
  induction es generalizing a out with
  | nil => rw [visitAll, List.flatMap_nil, List.append_nil]
  | cons e es ih =>
      rw [visitAll]
      change visitAll _ _ es _ = _
      rw [ih, List.flatMap_cons, List.append_assoc]

/-- What the three functions that look for the entry `e` do, when its data are at position `pos`. -/
structure Finds (m : ByteMem) (addr rounds : ℕ) (t : List UInt8) (e : Entry) (pos : ℕ) : Prop where
  size : cpioGetFileSize m addr rounds t = some ([], e.data.length)
  cat : cpioCat m addr rounds t = some (e.data.map Out.putc ++ [.puts crlf])
  exec : ∀ dst, dst ≠ 0 → dst ≤ addr + pos ∨ addr + pos + e.data.length ≤ dst →
    ∃ m', cpioGetExec m addr rounds t dst = some ([], m', some (addr + pos)) ∧ Has m' dst e.data ∧
      ∀ x, x < dst ∨ dst + e.data.length ≤ x → m' x = m x

theorem Placed.finds (h : Placed m addr es bs) (ht : (0 : UInt8) ∉ t) (hrounds : es.length < rounds)
    (he : es.find? (fun e => e.name = t) = some e) :
    ∃ pos, DataAt t es bs pos e.data ∧ Finds m addr rounds t e pos := by
  obtain ⟨header, pos, hdata, hentry, haddr, hsearch⟩ := h.search_first ht hrounds he
  have hread : read m (addr + pos) e.data.length = e.data := haddr ▸ hentry.data
  refine ⟨pos, hdata, ?_, ?_, fun dst hdst hapart =>
    ⟨copy m dst (addr + pos) e.data.length, ?_, ?_, ?_⟩⟩
  · rw [cpioGetFileSize, hsearch, hentry.fileSize]
  · rw [cpioCat, hsearch, hentry.fileSize, haddr, hread]
  · rw [cpioGetExec, hsearch, if_neg hdst, haddr, hentry.fileSize]
  · rw [Has, read_copy _ _ _ _ hapart, hread]
  · exact fun x hx => copy_outside _ _ _ _ hx

/-- On a newc archive `cpio_list` sends the names in their order, and the other functions find the data of
the first entry with the name, or none. The block at `dst` does not begin inside the data: the archive is
reserved and the callers get the block from `alloc`. -/
theorem cpio_decodes_newc (h : Placed m addr es bs) (hrounds : es.length < rounds) :
    cpioList m addr rounds = some (es.flatMap fun e => [.puts e.name, .puts crlf]) ∧
      ∀ t, (0 : UInt8) ∉ t →
        (es.find? (fun e => e.name = t) = none →
          cpioGetFileSize m addr rounds t = some (missing t, 0)) ∧
        ∀ e, es.find? (fun e => e.name = t) = some e →
          ∃ pos, DataAt t es bs pos e.data ∧ Finds m addr rounds t e pos := by
  refine ⟨?_, fun t ht => ⟨fun hnone => ?_, fun e he => h.finds ht hrounds he⟩⟩
  · rw [cpioList, h.runs (fun _ _ _ _ _ => rfl) hrounds, visitAll_list]
    rfl
  · have habsent : ∀ e ∈ es, e.name ≠ t := fun e he => by
      simpa using List.find?_eq_none.1 hnone e he
    rw [cpioGetFileSize, h.searches ht hrounds, visitAll_absent habsent]
    rfl

def twoEntries : List Entry := [⟨[97], [1, 2, 3]⟩, ⟨[97, 98], []⟩]
def twoFiles : ByteMem := write (fun _ => 0) 134217728 (Newc.encode true twoEntries)

theorem twoFiles_placed : Placed twoFiles 134217728 twoEntries (Newc.encode true twoEntries) := by
  refine ⟨Newc.archive_encode true (by decide), ?_, by decide +kernel, by decide, read_write_same ..⟩
  intro e he
  simp only [twoEntries, List.mem_cons, List.not_mem_nil, or_false] at he
  rcases he with rfl | rfl
  · exact ⟨by decide, by decide, by decide, by decide⟩
  · exact ⟨by decide, by decide, by decide, by decide⟩

theorem cpio_decodes_twoFiles :
    cpioList twoFiles 134217728 3 = some [.puts [97], .puts crlf, .puts [97, 98], .puts crlf] ∧
      cpioGetFileSize twoFiles 134217728 3 [98] = some (missing [98], 0) ∧
      ∃ pos, DataAt [97] twoEntries (Newc.encode true twoEntries) pos [1, 2, 3] ∧
        Finds twoFiles 134217728 3 [97] ⟨[97], [1, 2, 3]⟩ pos := by
  have hrounds : twoEntries.length < 3 := by decide
  obtain ⟨hlist, hfind⟩ := cpio_decodes_newc twoFiles_placed hrounds
  exact ⟨hlist, (hfind [98] (by decide)).1 (by decide), (hfind [97] (by decide)).2 _ rfl⟩

end OscKernel.Cpio
