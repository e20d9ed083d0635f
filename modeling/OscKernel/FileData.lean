import OscKernel.StoredFiles

/-!
# The bytes of the files

Writing through a handle of a file changes the bytes of that file only, and moves them when they need a
larger block. Bytes beyond the old end that are not written are whatever the block held.
-/

namespace OscKernel.Vfs

open Mm (maxAllocSize)

variable {st st' : State} {T : Set ℕ} {c : Contents} {v w p file pos required : ℕ} {r : ℤ}
  {x y : VnodeOps × List UInt8} {bs bytes : List UInt8}

theorem Stored.get (hc : Stored st T c) (hx : c v = some x) : StoredFile st v x := (hc.stored v x hx).2

theorem StoredFile.length_eq (hf : StoredFile st v x) : (st.internal v).size = x.2.length := by
  rw [← hf.content, ByteMem.read_length]

/-- One file changes, and the others do not. -/
theorem Stored.replace (hc : Stored st T c) (hv : c v ≠ none)
    (hsame : ∀ w ∈ T, w ≠ v → SameFile st st' w)
    (hlive : ∀ w, w ≠ v → c w ≠ none → (st.internal w).capacity ≠ 0 →
      ((st.internal w).data, (st.internal w).capacity) ∈ st'.heap.live)
    (hmem : ∀ w, w ≠ v → c w ≠ none → ∀ a, (st.internal w).data ≤ a →
      a < (st.internal w).data + (st.internal w).capacity → st'.mem a = st.mem a)
    (hf : StoredFile st' v y)
    (hnew : ∀ w, w ≠ v → c w ≠ none → (st.internal w).capacity ≠ 0 →
      (st.internal w).data ≠ (st'.internal v).data) :
    Stored st' T (Function.update c v (some y)) where
  stored w z hz := by
    by_cases hwv : w = v
    · rw [hwv, Function.update_self] at hz
      rw [hwv, ← Option.some.inj hz]
      exact ⟨(hc.mem hv).1, hf⟩
    · rw [Function.update_of_ne hwv] at hz
      have hne : c w ≠ none := by rw [hz]; exact Option.some_ne_none z
      obtain ⟨hw, hold⟩ := hc.stored w z hz
      have hs := hsame w hw hwv
      refine ⟨hw, hs.isFile.2 hold.isFile, hs.vOps.trans hold.vOps, fun hi => hold.fOps (hs.fOps hi), ?_, ?_,
        ?_, ?_⟩
      · rw [hs.size, hs.capacity]
        exact hold.size_le
      · rw [hs.capacity]
        exact hold.capacity_le
      · rw [hs.data, hs.capacity]
        exact hlive w hwv hne
      · rw [hs.data, hs.size, ← hold.content]
        refine ByteMem.read_congr _ _ fun a hlo hhi => hmem w hwv hne a hlo ?_
        have := hold.size_le
        omega
  all w hw hfile := by
    by_cases hwv : w = v
    · rw [hwv, Function.update_self]
      exact Option.some_ne_none y
    · rw [Function.update_of_ne hwv]
      exact hc.all w hw ((hsame w hw hwv).isFile.1 hfile)
  apart u w hu hw hcu hcw heq := by
    have hold : ∀ z, z ≠ v → Function.update c v (some y) z ≠ none → c z ≠ none ∧ SameFile st st' z := by
      intro z hz hne
      rw [Function.update_of_ne hz] at hne
      exact ⟨hne, hsame z (hc.mem hne).1 hz⟩
    by_cases huv : u = v <;> by_cases hwv : w = v
    · rw [huv, hwv]
    · obtain ⟨hne, hs⟩ := hold w hwv hw
      rw [hs.capacity] at hcw
      rw [hs.data, huv] at heq
      exact absurd heq.symm (hnew w hwv hne hcw)
    · obtain ⟨hne, hs⟩ := hold u huv hu
      rw [hs.capacity] at hcu
      rw [hs.data, hwv] at heq
      exact absurd heq (hnew u huv hne hcu)
    · obtain ⟨hneu, hsu⟩ := hold u huv hu
      obtain ⟨hnew', hsw⟩ := hold w hwv hw
      rw [hsu.capacity] at hcu
      rw [hsw.capacity] at hcw
      rw [hsu.data, hsw.data] at heq
      exact hc.apart u w hneu hnew' hcu hcw heq

/-- A change of handles. -/
theorem Stored.files (hc : Stored st T c) (f : ℕ → File) : Stored { st with files := f } T c :=
  hc.frame (fun w _ => ⟨Iff.rfl, rfl, id, rfl, rfl, rfl⟩)
    (fun w hw hcap => by
      obtain ⟨x, hx⟩ := Option.ne_none_iff_exists'.1 hw
      exact (hc.get hx).live hcap)
    fun _ _ _ _ _ => rfl

/-- A block without data is freed. -/
theorem Stored.free (hc : Stored st T c) (hp : NoData st c p) : Stored (st.free p) T c :=
  hc.frame (fun w _ => ⟨Iff.rfl, rfl, id, rfl, rfl, rfl⟩)
    (fun w hw hcap => by
      obtain ⟨x, hx⟩ := Option.ne_none_iff_exists'.1 hw
      exact Heap.mem_free.2 ⟨(hc.get hx).live hcap, hp w hw hcap⟩)
    fun _ _ _ _ _ => rfl

theorem doubleCapacity_le {fuel k j : ℕ} (h : doubleCapacity required fuel k = some j) : required ≤ j := by
  induction fuel generalizing k with
  | zero => cases h
  | succ fuel ih =>
      rw [doubleCapacity] at h
      split_ifs at h with hlt
      · exact ih h
      · rw [← Option.some.inj h]
        exact Nat.le_of_not_lt hlt

/-- Growing finds no memory, or the bytes move to a larger block. -/
theorem tmpfsGrow_cases (h : Tree st T) (hv : v ∈ T) (hdata : IsDataFile st v)
    (hsize : (st.internal v).size < 2 ^ 32) (hlt : (st.internal v).capacity < required) {ok : Bool}
    (hgrow : tmpfsGrow st (st.vnodes v).internal required = some (st', ok)) :
    (ok = false ∧ ∃ hp : Heap, hp.live = st.heap.live ∧ st' = { st with heap := hp }) ∨
      ok = true ∧ ∃ (hp : Heap) (p k : ℕ), hp.live = (p, k) :: st.heap.live ∧ 0 < k ∧ required ≤ k ∧
        k ≤ maxAllocSize ∧ (∀ b ∈ st.heap.live, Apart p k b) ∧ st' = st.moveData v hp p k := by
  obtain ⟨hold, k, hk⟩ := h.data v hv hdata
  have hpos : 0 < (st.internal v).capacity := h.heap.size_pos _ hold
  have hne : (st.internal v).data ≠ 0 := (h.heap.start_pos _ hold).ne'
  have hmod := Nat.mod_eq_of_lt hsize
  simp only [State.internal] at hk hpos hne hlt hmod
  simp only [tmpfsGrow, if_pos hpos, Option.bind_eq_bind] at hgrow
  obtain ⟨j, hj, hgrow⟩ := Option.bind_eq_some_iff.1 hgrow
  have hreq := doubleCapacity_le hj
  obtain ⟨i, rfl⟩ := doubleCapacity_pow (Nat.zero_lt_of_lt hlt) (Or.inr ⟨k, hk⟩) hj
  rw [if_pos (hlt.trans_le hreq)] at hgrow
  rcases st.heap.alloc_cases (defaultFileSize * 2 ^ i) with
    ⟨hp, halloc, hlive⟩ | ⟨hp, p, halloc, hp0, hn0, hn, hapart, hlive⟩
  · simp only [State.alloc, halloc, if_true] at hgrow
    obtain ⟨rfl, rfl⟩ := Prod.mk.inj (Option.some.inj hgrow)
    exact Or.inl ⟨rfl, hp, hlive, rfl⟩
  · rw [capacity_mod hn0] at hn hapart hlive hn0
    simp only [State.alloc, halloc, if_neg hp0.ne', if_neg hne, State.free, hmod] at hgrow
    obtain ⟨rfl, rfl⟩ := Prod.mk.inj (Option.some.inj hgrow)
    exact Or.inr ⟨rfl, hp, p, _, hlive, hn0, hreq, hn, hapart, rfl⟩

theorem Tree.capacity_ne (h : Tree st T) (hv : v ∈ T) (hdata : IsDataFile st v) :
    (st.internal v).capacity ≠ 0 := (h.heap.size_pos _ (h.data v hv hdata).1).ne'

/-- The data of a file moves to a new block. -/
theorem Stored.moveData (h : Tree st T) (hc : Stored st T c) (hx : c v = some x)
    (hcap : (st.internal v).capacity ≠ 0) {hp : Heap} {k : ℕ} (hlive : hp.live = (p, k) :: st.heap.live)
    (hk : 0 < k) (hapart : ∀ b ∈ st.heap.live, Apart p k b) (hmax : k ≤ maxAllocSize)
    (hle : (st.internal v).capacity ≤ k) : Stored (st.moveData v hp p k) T c := by
  obtain ⟨hvT, hf⟩ := hc.stored v x hx
  have hne : c v ≠ none := by rw [hx]; exact Option.some_ne_none x
  have hnew : ∀ b ∈ st.heap.live, b.1 ≠ p := fun b hb => h.heap.start_ne hk hb (hapart b hb)
  have hself := st.internal_moveData_self v hp p k
  have hlive₁ : ∀ b, b ∈ (st.moveData v hp p k).heap.live ↔
      (b = (p, k) ∨ b ∈ st.heap.live) ∧ b.1 ≠ (st.internal v).data := by
    intro b
    change b ∈ (hp.free _).live ↔ _
    rw [Heap.mem_free, hlive, List.mem_cons]
  have hblock : ∀ w, c w ≠ none → (st.internal w).capacity ≠ 0 →
      ((st.internal w).data, (st.internal w).capacity) ∈ st.heap.live := by
    intro w hw hcw
    obtain ⟨y, hy⟩ := Option.ne_none_iff_exists'.1 hw
    exact (hc.get hy).live hcw
  have hmoved : StoredFile (st.moveData v hp p k) v x := by
    refine ⟨?_, hf.vOps, hf.fOps, ?_, ?_, fun _ => ?_, ?_⟩
    · rw [IsFile, hself]
      exact hf.isFile
    · rw [hself]
      exact hf.size_le.trans hle
    · rw [hself]
      exact hmax
    · rw [hself]
      exact (hlive₁ _).2 ⟨Or.inl rfl, (hnew _ (hf.live hcap)).symm⟩
    · have hown := hapart _ (hf.live hcap)
      have hsize := hf.size_le
      simp only [Apart] at hown
      rw [hself]
      change ByteMem.read (ByteMem.copy _ _ _ _) _ _ = _
      rw [ByteMem.copy_eq_write _ _ _ _ (by omega)]
      have hread := ByteMem.read_write_same st.mem p
        (ByteMem.read st.mem (st.internal v).data (st.internal v).size)
      rw [ByteMem.read_length] at hread
      rw [hread]
      exact hf.content
  have hreplaced : Stored (st.moveData v hp p k) T (Function.update c v (some x)) := by
    refine hc.replace hne (fun w hw hwv => ?_) (fun w hwv hw hcw => ?_) (fun w hwv hw a hlo hhi => ?_) hmoved
      fun w hwv hw hcw => ?_
    · exact SameFile.of_eq rfl
        (st.internal_moveData_of_ne hp p k fun heq => hwv (h.node_inj w hw v hvT heq))
    · exact (hlive₁ _).2 ⟨Or.inr (hblock w hw hcw), fun heq => hwv (hc.apart w v hw hne hcw hcap heq)⟩
    · have happ := hapart _ (hblock w hw (by omega))
      have hsize := hf.size_le
      simp only [Apart] at happ
      exact ByteMem.copy_outside _ _ _ _ (by omega)
    · rw [hself]
      exact hnew _ (hblock w hw hcw)
  rwa [← hx, Function.update_eq_self] at hreplaced

theorem StoredFile.written (hf : StoredFile st v x) (pos : ℕ) (bytes : List UInt8) :
    OpenFiles.Written x.2 pos bytes (st.stored v pos bytes) := by
  have hlen := hf.length_eq
  refine ⟨ByteMem.read st.mem ((st.internal v).data + (st.internal v).size) (pos - (st.internal v).size),
    by rw [ByteMem.read_length, hlen], ?_⟩
  have hsplice := ByteMem.read_write_splice st.mem (st.internal v).data bytes
    (le_max_right (st.internal v).size pos)
  have hmax : max (max (st.internal v).size pos) (pos + bytes.length) =
      max (st.internal v).size (pos + bytes.length) := by omega
  have hext : max (st.internal v).size pos = (st.internal v).size + (pos - (st.internal v).size) := by omega
  rw [hmax, hext, ByteMem.read_append, hf.content] at hsplice
  exact hsplice

/-- Bytes go into a file that has room for them. -/
theorem Stored.storeData (h : Tree st T) (hc : Stored st T c) (hx : c v = some x)
    (hcap : (st.internal v).capacity ≠ 0) (hroom : pos + bytes.length ≤ (st.internal v).capacity) :
    Stored (st.storeData v pos bytes) T (Function.update c v (some (x.1, st.stored v pos bytes))) := by
  obtain ⟨hvT, hf⟩ := hc.stored v x hx
  have hne : c v ≠ none := by rw [hx]; exact Option.some_ne_none x
  have hself := st.internal_storeData_self v pos bytes
  refine hc.replace hne
    (fun w hw hwv => SameFile.of_eq rfl
      (st.internal_storeData_of_ne pos bytes fun heq => hwv (h.node_inj w hw v hvT heq))) ?_ ?_ ?_ ?_
  · intro w hwv hw hcw
    obtain ⟨y, hy⟩ := Option.ne_none_iff_exists'.1 hw
    exact (hc.get hy).live hcw
  · intro w hwv hw a hlo hhi
    obtain ⟨y, hy⟩ := Option.ne_none_iff_exists'.1 hw
    have hcw : (st.internal w).capacity ≠ 0 := by omega
    have hapart := h.heap.apart_of_start ((hc.get hy).live hcw) (hf.live hcap)
      fun heq => hwv (hc.apart w v hw hne hcw hcap heq)
    simp only [Apart] at hapart
    exact ByteMem.write_outside _ _ _ (by omega)
  · refine ⟨?_, hf.vOps, hf.fOps, ?_, ?_, fun _ => ?_, ?_⟩
    · rw [IsFile, hself]
      exact hf.isFile
    · rw [hself]
      exact max_le hf.size_le hroom
    · rw [hself]
      exact hf.capacity_le
    · rw [hself]
      exact hf.live hcap
    · rw [hself]
      rfl
  · intro w hwv hw hcw heq
    rw [hself] at heq
    exact hwv (hc.apart w v hw hne hcw hcap heq)

theorem NoData.congr {q : ℕ} {c' : Contents} (hn : NoData st c q) (hsame : ∀ w, c' w ≠ none → c w ≠ none)
    (hdata : ∀ w, c' w ≠ none → (st'.internal w).capacity ≠ 0 →
      (st.internal w).capacity ≠ 0 ∧ (st'.internal w).data = (st.internal w).data ∨
        (st'.internal w).data ≠ q) : NoData st' c' q := by
  intro w hw hcap
  rcases hdata w hw hcap with ⟨hcap', heq⟩ | hne
  · rw [heq]
    exact hn w (hsame w hw) hcap'
  · exact hne

/-- `st₁` has room for `n` bytes in the file `v`, and the files are those of `st`. -/
structure RoomFor (st st₁ : State) (T : Set ℕ) (c : Contents) (v n : ℕ) : Prop where
  tree : Tree st₁ T
  stored : Stored st₁ T c
  files : st₁.files = st.files
  vnodes : st₁.vnodes = st.vnodes
  room : n ≤ (st₁.internal v).capacity
  noData : ∀ q, (q, sizeofFile) ∈ st.heap.live → NoData st c q → NoData st₁ c q

theorem StoredFile.isDataFile (hf : StoredFile st v x) (hx : x.1 = .tmpfs) : IsDataFile st v :=
  ⟨hf.vOps.trans (congrArg some hx), hf.isFile.1⟩

theorem StoredFile.size_lt (hf : StoredFile st v x) : (st.internal v).size < 2 ^ 31 :=
  (hf.size_le.trans hf.capacity_le).trans_lt (by decide)

/-- Growing finds no memory, or gives room. -/
theorem Stored.grow (h : Tree st T) (hc : Stored st T c) (hx : c v = some x) (htmpfs : x.1 = .tmpfs)
    (hlt : (st.internal v).capacity < required) {ok : Bool}
    (hgrow : tmpfsGrow st (st.vnodes v).internal required = some (st', ok)) :
    if ok then RoomFor st st' T c v required
    else Stored st' T c ∧ st'.files = st.files ∧ ∀ q, NoData st c q → NoData st' c q := by
  obtain ⟨hvT, hf⟩ := hc.stored v x hx
  have hdata := hf.isDataFile htmpfs
  have htree := (h.tmpfsGrow hvT hdata (Nat.zero_lt_of_lt hlt) hgrow).1
  rcases tmpfsGrow_cases h hvT hdata (hf.size_lt.trans (by norm_num)) hlt hgrow with
    ⟨rfl, hp, hlive, rfl⟩ | ⟨rfl, hp, p, k, hlive, hk, hreq, hmax, hapart, rfl⟩
  · refine ⟨hc.frame (fun w _ => SameFile.of_eq rfl rfl) (fun w hw hcap => ?_) fun _ _ _ _ _ => rfl, rfl,
      fun q hn => hn⟩
    obtain ⟨y, hy⟩ := Option.ne_none_iff_exists'.1 hw
    change _ ∈ hp.live
    rw [hlive]
    exact (hc.get hy).live hcap
  · have hself := st.internal_moveData_self v hp p k
    refine ⟨htree, hc.moveData h hx (h.capacity_ne hvT hdata) hlive hk hapart hmax (hlt.le.trans hreq), rfl,
      rfl, ?_, fun q hq hn => hn.congr (fun _ hw => hw) fun w hw hcap => ?_⟩
    · rw [hself]
      exact hreq
    · by_cases hwv : w = v
      · right
        rw [hwv, hself]
        exact (h.heap.start_ne hk hq (hapart _ hq)).symm
      · left
        have hother := st.internal_moveData_of_ne hp p k
          fun heq => hwv (h.node_inj w (hc.mem hw).1 v hvT heq)
        rw [hother] at hcap ⊢
        exact ⟨hcap, rfl⟩

theorem badFile_iff (h : Tree st T) (hv : (st.files file).vnode ∈ T) : st.badFile file ↔ file = 0 := by
  constructor
  · rintro (h0 | h0 | h0)
    · exact h0
    · exact absurd h0 (h.ne_zero hv)
    · exact absurd h0 (h.internal_ne_zero hv)
  · exact Or.inl

/-- The effects of a write to a file: there is no memory, or the bytes are in the file. -/
theorem Stored.write (h : Tree st T) (hc : Stored st T c) (hfile : file ≠ 0)
    (hx : c (st.files file).vnode = some x) (htmpfs : x.1 = .tmpfs) (hpos : (st.files file).fPos < 2 ^ 63)
    (hne : bytes ≠ []) (hlen : bytes.length < 2 ^ 32)
    (hw : tmpfsWrite st file (some bytes) = some (st', r)) :
    (r = enomem ∧ x.2.length < (st.files file).fPos + bytes.length ∧ Stored st' T c ∧ st'.files = st.files ∧
        ∀ q, NoData st c q → NoData st' c q) ∨
      r = bytes.length ∧ (st.files file).fPos + bytes.length < 2 ^ 63 ∧ ∃ bs',
        OpenFiles.Written x.2 (st.files file).fPos bytes bs' ∧
        Stored st' T (Function.update c (st.files file).vnode (some (x.1, bs'))) ∧
        st'.files = Function.update st.files file
          { st.files file with fPos := (st.files file).fPos + bytes.length } ∧
        ∀ q, (q, sizeofFile) ∈ st.heap.live → NoData st c q →
          NoData st' (Function.update c (st.files file).vnode (some (x.1, bs'))) q := by
  obtain ⟨hvT, hf⟩ := hc.stored _ x hx
  have hgood : ¬ st.badFile file := (badFile_iff h hvT).not.2 hfile
  have hlen0 : bytes.length ≠ 0 := fun h0 => hne (List.length_eq_zero_iff.1 h0)
  have hmod : ((st.files file).fPos + bytes.length) % 2 ^ 64 = (st.files file).fPos + bytes.length :=
    Nat.mod_eq_of_lt (by omega)
  -- With room, the bytes are stored.
  have hstore : ∀ {st₁}, RoomFor st st₁ T c (st.files file).vnode ((st.files file).fPos + bytes.length) →
      st' = tmpfsStore st₁ file (st.vnodes (st.files file).vnode).internal bytes → r = toInt bytes.length →
      r = bytes.length ∧ (st.files file).fPos + bytes.length < 2 ^ 63 ∧ ∃ bs',
        OpenFiles.Written x.2 (st.files file).fPos bytes bs' ∧
        Stored st' T (Function.update c (st.files file).vnode (some (x.1, bs'))) ∧
        st'.files = Function.update st.files file
          { st.files file with fPos := (st.files file).fPos + bytes.length } ∧
        ∀ q, (q, sizeofFile) ∈ st.heap.live → NoData st c q →
          NoData st' (Function.update c (st.files file).vnode (some (x.1, bs'))) q := by
    intro st₁ hroom heq hr
    have hf₁ := hroom.stored.get hx
    have hsmall : (st.files file).fPos + bytes.length < 2 ^ 31 :=
      (hroom.room.trans hf₁.capacity_le).trans_lt (by decide)
    have hcap : (st₁.internal (st.files file).vnode).capacity ≠ 0 := by
      have := hroom.room
      omega
    have hst : st' = (st₁.storeData (st.files file).vnode (st.files file).fPos bytes).setFile file
        fun e => { e with fPos := (st.files file).fPos + bytes.length } := by
      rw [heq, ← hroom.vnodes]
      exact tmpfsStore_eq (by rw [hroom.files]) hlen (by omega)
    have hself := st₁.internal_storeData_self (st.files file).vnode (st.files file).fPos bytes
    refine ⟨hr.trans (toInt_of_lt (by omega)), by omega, _, hf₁.written _ bytes, ?_, ?_, fun q hq hn => ?_⟩
    · rw [hst]
      exact (hroom.stored.storeData hroom.tree hx hcap hroom.room).files _
    · rw [hst]
      rw [← hroom.files]
      rfl
    · rw [hst]
      refine (hroom.noData q hq hn).congr (fun w hw => ?_) fun w hw hcw => ?_
      · by_cases hwv : w = (st.files file).vnode
        · rw [hwv, hx]
          exact Option.some_ne_none x
        · rwa [Function.update_of_ne hwv] at hw
      · left
        change ((st₁.storeData _ _ _).internal w).capacity ≠ 0 at hcw
        change _ ∧ ((st₁.storeData _ _ _).internal w).data = _
        by_cases hwv : w = (st.files file).vnode
        · rw [hwv, hself]
          exact ⟨hcap, rfl⟩
        · rw [Function.update_of_ne hwv] at hw
          have hother := st₁.internal_storeData_of_ne (st.files file).fPos bytes
            fun heq => hwv (hroom.tree.node_inj w (hroom.stored.mem hw).1 _ hvT heq)
          rw [hother] at hcw ⊢
          exact ⟨hcw, rfl⟩
  by_cases hfit : (st.files file).fPos + bytes.length ≤ (st.internal (st.files file).vnode).capacity
  · rw [tmpfsWrite_fits hgood hlen0 hf.isFile.1 (hmod.trans_le hfit)] at hw
    obtain ⟨heq, hr⟩ := Prod.mk.inj (Option.some.inj hw)
    exact Or.inr (hstore ⟨h, hc, rfl, rfl, hfit, fun _ _ hn => hn⟩ heq.symm hr.symm)
  · have hlt := not_le.1 hfit
    cases hgrow : tmpfsGrow st (st.vnodes (st.files file).vnode).internal
        (((st.files file).fPos + bytes.length) % 2 ^ 64) with
    | none =>
        rw [hmod] at hgrow
        have hlt' : (st.nodes (st.vnodes (st.files file).vnode).internal).capacity <
            (st.files file).fPos + bytes.length := hlt
        have htype : (st.nodes (st.vnodes (st.files file).vnode).internal).type = .file := hf.isFile.1
        simp only [tmpfsWrite, if_neg hgood, if_neg hlen0, htype, ne_eq, not_true_eq_false, if_false,
          if_pos hlt', hmod, hgrow, Option.bind_eq_bind, Option.bind_none] at hw
        cases hw
    | some y =>
        obtain ⟨st₁, ok⟩ := y
        rw [tmpfsWrite_grows hgood hlen0 hf.isFile.1 (by rw [hmod]; exact hlt) hgrow] at hw
        rw [hmod] at hgrow
        have hcases := hc.grow h hx htmpfs hlt hgrow
        cases ok with
        | false =>
            obtain ⟨rfl, rfl⟩ := Prod.mk.inj (Option.some.inj hw)
            refine Or.inl ⟨rfl, ?_, hcases⟩
            rw [← hf.length_eq]
            exact hf.size_le.trans_lt hlt
        | true =>
            obtain ⟨heq, hr⟩ := Prod.mk.inj (Option.some.inj hw)
            exact Or.inr (hstore hcases heq.symm hr.symm)

end OscKernel.Vfs
