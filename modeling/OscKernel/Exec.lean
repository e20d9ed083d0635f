import OscKernel.ByteOrder
import OscKernel.CpioDecode
import OscKernel.HeapContents
import OscKernel.Utils

/-!
# Loading a program

`_exec` looks a file up in the archive, gets a block for it and copies it there. The memory of the heap is a
memory of words, and the archive and the program are bytes of it. Since nobody writes to the archive, every
call loads what the archive held at the start.
-/

namespace OscKernel.Alloc

open ByteMem Linked Mm Relation
open Cpio (EntryAt Out fileAddr fileSize search)
open Newc (Entry)

variable {fixed : Finset DyadicBlock} {carved : List (ℕ × ℕ)} {F : ℕ → ℕ → Prop} {s s' : Sys}
  {st : State} {live : List (ℕ × ℕ)} {p : BlockPool} {a : ℕ × ℕ} {i n x dest src rounds : ℕ} {b : UInt8}
  {L : Layout} {es : List Entry} {bs t : List UInt8} {e : Entry}

def memBytes (mem : ℕ → ℕ) : ByteMem := fun x => (ByteOrder.bytes 8 (mem (x / 8 * 8))).getD (x % 8) 0

def State.storeByte (st : State) (x : ℕ) (b : UInt8) : State :=
  st.store (x / 8 * 8) (ByteOrder.value ((ByteOrder.bytes 8 (st.mem (x / 8 * 8))).set (x % 8) b))

def memcpy (st : State) (dest src : ℕ) : ℕ → State
  | 0 => st
  | n + 1 => memcpy (st.storeByte dest (memBytes st.mem src)) (dest + 1) (src + 1) n

theorem memBytes_storeByte : memBytes (st.storeByte x b).mem = Function.update (memBytes st.mem) x b := by
  funext y
  rw [memBytes, State.storeByte, store_mem]
  by_cases hword : y / 8 * 8 = x / 8 * 8
  · have hbytes : ∀ l : List UInt8, l.length = 8 → ByteOrder.bytes 8 (ByteOrder.value l) = l := by
      intro l hl
      rw [← hl, ByteOrder.bytes_value]
    rw [hword, Function.update_self, hbytes _ (by rw [List.length_set, ByteOrder.bytes_length])]
    by_cases hy : y = x
    · rw [hy, Function.update_self, List.getD_eq_getElem?_getD, List.getElem?_set_self]
      · rfl
      · rw [ByteOrder.bytes_length]
        omega
    · rw [Function.update_of_ne hy, List.getD_eq_getElem?_getD, List.getElem?_set_ne (by omega), memBytes,
        hword, List.getD_eq_getElem?_getD]
  · have hy : y ≠ x := by
      rintro rfl
      exact hword rfl
    rw [Function.update_of_ne hword, Function.update_of_ne hy]
    rfl

theorem memBytes_memcpy : memBytes (memcpy st dest src n).mem = copy (memBytes st.mem) dest src n := by
  induction n generalizing st dest src with
  | zero => rfl
  | succ n ih => rw [memcpy, ih, memBytes_storeByte, copy]

/-- A copy into a held block is what its client may do. -/
theorem memcpy_run (ha : a ∈ live) (hlo : a.1 ≤ dest) (hhi : dest + n ≤ a.1 + a.2) :
    ReflTransGen (Sys.Step L) ⟨st, live⟩ ⟨memcpy st dest src n, live⟩ := by
  induction n generalizing st dest src with
  | zero => exact ReflTransGen.refl
  | succ n ih =>
      have hmem : dest ∈ area a := by
        rw [area, Finset.mem_Ico]
        omega
      have hstep : Sys.Step L ⟨st, live⟩ ⟨st.storeByte dest (memBytes st.mem src), live⟩ := by
        refine ⟨.write (dest / 8 * 8) _, ⟨Nat.dvd_mul_left _ _, a, ha, dest, hmem, ?_, ?_⟩, rfl⟩ <;> omega
      exact (ReflTransGen.single hstep).trans (ih (by omega) (by omega))

def cpioGetExec (st : State) (cpioAddr rounds : ℕ) (target : List UInt8) (execAddr : ℕ) :
    Option (List Out × State × Option ℕ) :=
  let m := memBytes st.mem
  search m target
    (fun header =>
      ([], if execAddr = 0 then st else memcpy st execAddr (fileAddr m header) (fileSize m header),
        some (fileAddr m header)))
    (fun out => (out, st, none)) cpioAddr rounds

def fileNotFound : List UInt8 :=
  [58, 32, 32, 70, 105, 108, 101, 32, 110, 111, 116, 32, 102, 111, 117, 110, 100, 13, 10]
def fileText : List UInt8 := [70, 105, 108, 101, 58, 32]
def sizeText : List UInt8 := [44, 32, 115, 105, 122, 101, 58, 32]

/-- `_exec` up to the call of `thread_create`, with what it sends and the address for the new thread. -/
def exec (L : Layout) (s : Sys) (cpioAddr rounds : ℕ) (filename : List UInt8) :
    Option (List Out × Sys × Option ℕ) := do
  let (out, execSize) ← Cpio.cpioGetFileSize (memBytes s.heap.mem) cpioAddr rounds filename
  if execSize = 0 then some (out ++ [.puts filename, .puts fileNotFound], s, none)
  else
    let out := out ++ [.puts fileText, .puts filename, .puts sizeText,
      .puts (Utils.chars (Int32.ofNat execSize)).reverse, .puts Cpio.crlf]
    let execAddr := (alloc s.heap execSize).2
    let s := s.step L (.alloc execSize)
    if execAddr = 0 then some (out, s, none)
    else
      -- `exec_addr` is a copy of the address: what `cpio_get_exec` does to its own is lost.
      let (out', heap, _) ← cpioGetExec s.heap cpioAddr rounds filename execAddr
      some (out ++ out', ⟨heap, s.live⟩, some execAddr)

theorem memBytes_congr {mem mem' : ℕ → ℕ} (h : mem' (x / 8 * 8) = mem (x / 8 * 8)) :
    memBytes mem' x = memBytes mem x := by
  rw [memBytes, memBytes, h]

/-- The archive is where it was, and no block meets it. -/
theorem Keeping.archive {m : Images} {mem : ℕ → ℕ} (h : Keeping fixed mem s)
    (hfixed : fixed.biUnion DyadicBlock.pages = m.pages L)
    (hplaced : Cpio.Placed (memBytes mem) m.cpioAddr es bs) (hend : m.cpioAddr + bs.length ≤ m.cpioEnd) :
    Cpio.Placed (memBytes s.heap.mem) m.cpioAddr es bs ∧
      ∀ a ∈ s.live, ∀ i ∈ area a, ¬ (m.cpioAddr ≤ i ∧ i < m.cpioAddr + bs.length) := by
  obtain ⟨⟨carved, F, p, hinv⟩, hkept⟩ := h
  have hrange : (m.cpioAddr, m.cpioEnd) ∈ m.ranges L :=
    List.mem_cons_of_mem _ (List.mem_cons_of_mem _ List.mem_cons_self)
  have hpage : ∀ x, m.cpioAddr ≤ x → x < m.cpioAddr + bs.length →
      x / pageSize ∈ fixed.biUnion DyadicBlock.pages := by
    intro x hlo hhi
    rw [hfixed]
    exact Images.mem_pages hrange hlo (lt_of_lt_of_le hhi hend)
  refine ⟨{ hplaced with bytes := ?_ }, fun a ha i hi hin => ?_⟩
  · refine (read_congr _ _ fun x hlo hhi => memBytes_congr ?_).trans hplaced.bytes
    apply hkept
    have hword : x / 8 * 8 / pageSize = x / pageSize := by
      rw [show pageSize = 4096 from rfl]
      omega
    rw [hword]
    exact hpage x hlo hhi
  · exact hinv.area_reserved ha hi (hpage i hin.1 hin.2)

/-- `s'` is `s` with a new block at `ptr` that holds the bytes `data`. -/
structure Loaded (s : Sys) (data : List UInt8) (s' : Sys) (ptr : ℕ) : Prop where
  live : s'.live = (ptr, data.length) :: s.live
  bytes : read (memBytes s'.heap.mem) ptr data.length = data
  others : ∀ a ∈ s.live, ∀ i ∈ area a, memBytes s'.heap.mem i = memBytes s.heap.mem i

/-- The file that `_exec` gets for a name: an empty one counts as none. -/
def program (es : List Entry) (t : List UInt8) : Option Entry :=
  (es.find? fun e => e.name = t).filter fun e => e.data ≠ []

theorem missing_size {m : ByteMem} {addr : ℕ} (h : Cpio.Placed m addr es bs) (ht : (0 : UInt8) ∉ t)
    (hrounds : es.length < rounds) (hnone : es.find? (fun e => e.name = t) = none) :
    Cpio.cpioGetFileSize m addr rounds t = some (Cpio.missing t, 0) := by
  have habsent : ∀ e ∈ es, e.name ≠ t := fun e he => by
    simpa using List.find?_eq_none.1 hnone e he
  rw [Cpio.cpioGetFileSize, h.searches ht hrounds, Cpio.visitAll_absent habsent]
  rfl

theorem Inv.noRoom_iff (h : Inv fixed carved F s p) : NoRoom s.heap n ↔ (Alloc.alloc s.heap n).2 = 0 :=
  (h.alloc_serves n).1.symm

theorem exec_missing {addr : ℕ} {out : List Out}
    (hsize : Cpio.cpioGetFileSize (memBytes s.heap.mem) addr rounds t = some (out, 0)) :
    ∃ out, exec L s addr rounds t = some (out, s, none) := by
  rw [exec, hsize]
  exact ⟨_, rfl⟩

theorem exec_null {addr : ℕ} {out : List Out} (hn : n ≠ 0) (hinv : Inv fixed carved F s p)
    (hsize : Cpio.cpioGetFileSize (memBytes s.heap.mem) addr rounds t = some (out, n))
    (hroom : NoRoom s.heap n) : ∃ out, exec L s addr rounds t = some (out, s, none) := by
  rcases s with ⟨st, live⟩
  obtain ⟨hiff, hsame⟩ := hinv.alloc_serves n
  have hnull := hiff.2 hroom
  have hstep : Sys.step L ⟨st, live⟩ (.alloc n) = ⟨st, live⟩ := by
    rw [step_alloc L st live n rfl, hsame hnull, if_pos hnull]
  simp only [exec, hsize, Option.bind_eq_bind, Option.bind_some, if_neg hn, if_pos hnull, hstep]
  exact ⟨_, rfl⟩

/-- The part behind the call of `alloc`. -/
theorem exec_some {addr ptr : ℕ} {out out' : List Out} {r : Option ℕ} (hn : n ≠ 0)
    (hsize : Cpio.cpioGetFileSize (memBytes s.heap.mem) addr rounds t = some (out, n))
    (hptr : (Alloc.alloc s.heap n).2 = ptr) (hne : ptr ≠ 0)
    (hget : cpioGetExec (s.step L (.alloc n)).heap addr rounds t ptr = some (out', st, r)) :
    ∃ out, exec L s addr rounds t = some (out, ⟨st, (s.step L (.alloc n)).live⟩, some ptr) := by
  simp only [exec, hsize, Option.bind_eq_bind, Option.bind_some, if_neg hn, hptr, if_neg hne, hget]
  exact ⟨_, rfl⟩

/-- The copy of the file from the archive. -/
theorem cpioGetExec_placed {addr ptr : ℕ} (h : Cpio.Placed (memBytes st.mem) addr es bs)
    (ht : (0 : UInt8) ∉ t) (hrounds : es.length < rounds) (he : es.find? (fun e => e.name = t) = some e)
    (hne : ptr ≠ 0) (hdata : e.data ≠ [])
    (hapart : ∀ i, ptr ≤ i → i < ptr + e.data.length → ¬ (addr ≤ i ∧ i < addr + bs.length)) :
    ∃ src, cpioGetExec st addr rounds t ptr = some ([], memcpy st ptr src e.data.length, some src) ∧
      read (memBytes (memcpy st ptr src e.data.length).mem) ptr e.data.length = e.data := by
  obtain ⟨header, pos, hat, hentry, haddr, hsearch⟩ := h.search_first ht hrounds he
  refine ⟨addr + pos, ?_, ?_⟩
  · simp only [cpioGetExec, hsearch, if_neg hne, haddr, hentry.fileSize]
  · have hread : read (memBytes st.mem) (addr + pos) e.data.length = e.data := haddr ▸ hentry.data
    have hlen := List.length_pos_of_ne_nil hdata
    have hle : pos + e.data.length ≤ bs.length := by
      obtain ⟨es₁, x, es₂, ms, front, rest, -, -, -, -, -, -, rfl, rfl⟩ := hat
      simp only [List.length_append]
      omega
    have hfar := hapart ptr le_rfl (by omega)
    have hfar' := hapart (addr + pos)
    rw [memBytes_memcpy, read_copy _ _ _ _ (by omega), hread]

/-- A new block in a state along a run. -/
theorem Inv.new_block (h : Inv fixed carved F s p) (hne : (Alloc.alloc s.heap n).2 ≠ 0) :
    (s.step L (.alloc n)).live = ((Alloc.alloc s.heap n).2, n) :: s.live ∧
      ∀ a ∈ s.live, ∀ i ∈ area a, i ∉ area ((Alloc.alloc s.heap n).2, n) ∧
        memBytes (s.step L (.alloc n)).heap.mem i = memBytes s.heap.mem i := by
  rcases s with ⟨st, live⟩
  have hlive : (Sys.step L ⟨st, live⟩ (.alloc n)).live = ((Alloc.alloc st n).2, n) :: live := by
    rw [step_alloc L st live n rfl]
    exact if_neg hne
  refine ⟨hlive, fun a ha i hi => ⟨fun hi' => ?_, memBytes_congr ?_⟩⟩
  · obtain ⟨carved', F', p', h'⟩ := h.alloc (L := L) n
    have hnodup := h'.nodup
    rw [hlive, List.map_cons, List.nodup_cons] at hnodup
    have hnew : ((Alloc.alloc st n).2, n) ∈ (Sys.step L ⟨st, live⟩ (.alloc n)).live :=
      hlive ▸ List.mem_cons_self
    have hold : a ∈ (Sys.step L ⟨st, live⟩ (.alloc n)).live := hlive ▸ List.mem_cons_of_mem _ ha
    refine Finset.disjoint_left.1 (h'.area_apart hold hnew fun heq => hnodup.1 ?_) hi hi'
    exact List.mem_map.2 ⟨a, ha, heq⟩
  · exact h.alloc_clear n fun h' => h'.area_clear ha hi

theorem program_none (h : program es t = none) :
    es.find? (fun e => e.name = t) = none ∨
      ∃ e, es.find? (fun e => e.name = t) = some e ∧ e.data = [] := by
  rw [program] at h
  cases hfind : es.find? (fun e => e.name = t) with
  | none => exact Or.inl rfl
  | some e =>
      rw [hfind, Option.filter_some] at h
      split_ifs at h with hdata
      exact Or.inr ⟨e, rfl, by simpa using hdata⟩

theorem program_some (h : program es t = some e) :
    es.find? (fun e => e.name = t) = some e ∧ e.data ≠ [] := by
  obtain ⟨hfind, hdata⟩ := Option.filter_eq_some_iff.1 h
  exact ⟨hfind, by simpa using hdata⟩

/-- Whenever `_exec` is called, and whatever the clients of the heap have done before, it loads what the
archive held at boot into a block of its own, or changes nothing if there is no such file or no room. -/
theorem exec_loads {m : Images} {mem : ℕ → ℕ} {kmemCaches : ℕ → KmemCache} (h : m.Apart L)
    (hplaced : Cpio.Placed (memBytes mem) m.cpioAddr es bs) (hend : m.cpioAddr + bs.length ≤ m.cpioEnd)
    (hrun : ReflTransGen (Sys.Step L) ⟨m.boot L mem kmemCaches, []⟩ s) (hrounds : es.length < rounds)
    (ht : (0 : UInt8) ∉ t) :
    (program es t = none → ∃ out, exec L s m.cpioAddr rounds t = some (out, s, none)) ∧
    ∀ e, program es t = some e →
      (NoRoom s.heap e.data.length → ∃ out, exec L s m.cpioAddr rounds t = some (out, s, none)) ∧
      (¬ NoRoom s.heap e.data.length → ∃ out s' ptr, exec L s m.cpioAddr rounds t = some (out, s', some ptr) ∧
        ReflTransGen (Sys.Step L) s s' ∧ Loaded s e.data s' ptr) := by
  obtain ⟨fixed, hfixed, hkeep⟩ := h.keeping hrun
  have hker := hfixed ▸ m.kernel_pages L
  obtain ⟨harchive, -⟩ := hkeep.archive hfixed hplaced hend
  obtain ⟨carved, F, p, hinv⟩ := hkeep.1
  constructor
  · intro hnone
    rcases program_none hnone with hnone | ⟨e, he, hempty⟩
    · exact exec_missing (missing_size harchive ht hrounds hnone)
    · obtain ⟨pos, -, hfinds⟩ := harchive.finds ht hrounds he
      have hsize := hfinds.size
      rw [hempty] at hsize
      exact exec_missing hsize
  intro e he
  obtain ⟨he, hdata⟩ := program_some he
  obtain ⟨pos, -, hfinds⟩ := harchive.finds ht hrounds he
  have hlen : e.data.length ≠ 0 := (List.length_pos_of_ne_nil hdata).ne'
  refine ⟨exec_null hlen hinv hfinds.size, fun hroom => ?_⟩
  have hne : (Alloc.alloc s.heap e.data.length).2 ≠ 0 := fun h0 => hroom (hinv.noRoom_iff.2 h0)
  have hstep : Sys.Step L s (s.step L (.alloc e.data.length)) := ⟨.alloc _, trivial, rfl⟩
  obtain ⟨hlive, hothers⟩ := hinv.new_block (L := L) hne
  -- the archive after the call of `alloc`
  obtain ⟨harchive', hfree⟩ := (keeping_stable hker hkeep hstep).archive hfixed hplaced hend
  have hnew : ((Alloc.alloc s.heap e.data.length).2, e.data.length) ∈
      (s.step L (.alloc e.data.length)).live := hlive ▸ List.mem_cons_self
  obtain ⟨src, hget, hread⟩ := cpioGetExec_placed harchive' ht hrounds he hne hdata
    fun i hlo hhi => hfree _ hnew i (Finset.mem_Ico.2 ⟨hlo, hhi⟩)
  obtain ⟨out, hexec⟩ := exec_some hlen hfinds.size rfl hne hget
  refine ⟨out, _, _, hexec, (ReflTransGen.single hstep).trans (memcpy_run hnew le_rfl le_rfl),
    hlive, hread, ?_⟩
  intro a ha i hi
  obtain ⟨hout, hsame⟩ := hothers a ha i hi
  rw [memBytes_memcpy, copy_outside, hsame]
  rw [area, Finset.mem_Ico] at hout
  omega

theorem memBytes_word (m : ByteMem) : memBytes (ByteOrder.word m) = m := by
  funext x
  have hbytes := ByteOrder.bytes_value (read m (x / 8 * 8) 8)
  rw [read_length] at hbytes
  rw [memBytes, ByteOrder.word, hbytes, List.getD_eq_getElem?_getD, read_getElem? _ _ _ (by omega)]
  change m (x / 8 * 8 + x % 8) = m x
  rw [Nat.div_add_mod']

def archiveHeap : Sys :=
  ⟨sampleImages.boot sampleLayout (ByteOrder.word Cpio.twoFiles) fun _ => ⟨0, 0⟩, []⟩

theorem archiveHeap_room : (Alloc.alloc archiveHeap.heap 3).2 ≠ 0 := by decide +kernel

theorem archiveHeap_run : ReflTransGen (Sys.Step sampleLayout)
    ⟨sampleImages.boot sampleLayout (ByteOrder.word Cpio.twoFiles) fun _ => ⟨0, 0⟩, []⟩ archiveHeap :=
  ReflTransGen.refl

theorem twoFiles_program : program Cpio.twoEntries [97] = some ⟨[97], [1, 2, 3]⟩ := rfl

theorem exec_loads_file : ∃ out s' ptr,
    exec sampleLayout archiveHeap sampleImages.cpioAddr 3 [97] = some (out, s', some ptr) ∧
      ReflTransGen (Sys.Step sampleLayout) archiveHeap s' ∧ Loaded archiveHeap [1, 2, 3] s' ptr := by
  have hplaced : Cpio.Placed (memBytes (ByteOrder.word Cpio.twoFiles)) sampleImages.cpioAddr Cpio.twoEntries
      (Newc.encode true Cpio.twoEntries) := (memBytes_word _).symm ▸ Cpio.twoFiles_placed
  obtain ⟨fixed, -, ⟨carved, F, p, hinv⟩, -⟩ := sampleImages_apart.keeping archiveHeap_run
  have hroom : ¬ NoRoom archiveHeap.heap 3 := fun hno =>
    archiveHeap_room (hinv.noRoom_iff.1 hno)
  have hend : sampleImages.cpioAddr + (Newc.encode true Cpio.twoEntries).length ≤ sampleImages.cpioEnd := by
    decide +kernel
  exact ((exec_loads sampleImages_apart hplaced hend archiveHeap_run (by decide) (by decide)).2 _
    twoFiles_program).2 hroom

end OscKernel.Alloc
