import OscKernel.TmpfsCreate
import OscKernel.TmpfsFiles

/-!
# Each file step refines the reference model

Growing a buffer changes no content, storing bytes splices them into one content, and the other steps
change one handle.
-/

namespace OscKernel.Vfs

open Mm (maxAllocSize)

variable {V : Set ℕ} {opened : List ℕ} {st st' : State} {m : ByteArrays} {v h pos : ℕ}
  {bs bytes : List UInt8}

/-- The loop stops at the first doubling that holds the bytes required. -/
theorem doubleCapacity_spec {required : ℕ} (hreq : required ≤ 2 ^ 63) :
    ∀ fuel k, required ≤ defaultFileSize * 2 ^ (k + fuel) → ∃ j,
      doubleCapacity required (fuel + 1) (defaultFileSize * 2 ^ k) =
        some (defaultFileSize * 2 ^ k * 2 ^ j) ∧
      IsLeast {j | required ≤ defaultFileSize * 2 ^ k * 2 ^ j} j := by
  intro fuel
  induction fuel with
  | zero =>
      intro k hfuel
      rw [Nat.add_zero] at hfuel
      refine ⟨0, ?_, hfuel.trans_eq (Nat.mul_one _).symm, fun _ _ => Nat.zero_le _⟩
      rw [doubleCapacity, if_neg (not_lt.2 hfuel), pow_zero, Nat.mul_one]
  | succ fuel ih =>
      intro k hfuel
      rw [doubleCapacity]
      by_cases hlt : defaultFileSize * 2 ^ k < required
      · have hstep : ∀ i, defaultFileSize * 2 ^ (k + 1) * 2 ^ i = defaultFileSize * 2 ^ k * 2 ^ (i + 1) := by
          intro i
          rw [pow_succ 2 k, pow_succ 2 i]
          ring
        have hnext : defaultFileSize * 2 ^ k * 2 % 2 ^ 64 = defaultFileSize * 2 ^ (k + 1) := by
          rw [pow_succ 2 k, ← mul_assoc]
          exact Nat.mod_eq_of_lt (by omega)
        obtain ⟨j, heq, hj, hleast⟩ := ih (k + 1) (by rw [Nat.add_right_comm]; exact hfuel)
        refine ⟨j + 1, ?_, hj.trans_eq (hstep j), fun i hi => ?_⟩
        · rw [if_pos hlt, hnext, heq, hstep]
        · cases i with
          | zero => exact absurd (hi.trans_eq (Nat.mul_one _)) (not_le.2 hlt)
          | succ i => exact Nat.succ_le_succ (hleast (hi.trans_eq (hstep i).symm))
      · refine ⟨0, ?_, (not_lt.1 hlt).trans_eq (Nat.mul_one _).symm, fun _ _ => Nat.zero_le _⟩
        rw [if_neg hlt, pow_zero, Nat.mul_one]

/-- The file does not hold `required` bytes, and there is no block of the first doubling of its capacity
that would. -/
def State.GrowFails (st : State) (v required : ℕ) : Prop :=
  (st.internal v).capacity < required ∧
    ∃ j, IsLeast {j | required ≤ (st.internal v).capacity * 2 ^ j} j ∧
      (st.heap.alloc ((st.internal v).capacity * 2 ^ j)).2 = 0

theorem State.growFails_iff {required j : ℕ} (hlt : (st.internal v).capacity < required)
    (hj : IsLeast {j | required ≤ (st.internal v).capacity * 2 ^ j} j) :
    st.GrowFails v required ↔ (st.heap.alloc ((st.internal v).capacity * 2 ^ j)).2 = 0 := by
  refine ⟨fun ⟨_, i, hi, hfail⟩ => ?_, fun hfail => ⟨hlt, j, hj, hfail⟩⟩
  rwa [hi.unique hj] at hfail

/-- A capacity that `alloc` does not refuse is the size it serves. -/
theorem capacity_mod {k : ℕ} (h : 0 < defaultFileSize * 2 ^ k % 2 ^ 32) :
    defaultFileSize * 2 ^ k % 2 ^ 32 = defaultFileSize * 2 ^ k := by
  have hfile : defaultFileSize = 2 ^ 12 := rfl
  rw [hfile, ← pow_add] at h ⊢
  by_cases hk : 12 + k < 32
  · exact Nat.mod_eq_of_lt (Nat.pow_lt_pow_right (by norm_num) hk)
  · rw [Nat.mod_eq_zero_of_dvd (pow_dvd_pow 2 (by omega))] at h
    exact absurd h (lt_irrefl 0)

/-- Changes of the heap that keep the blocks in use keep all files. -/
theorem Represents.heap_congr (hr : Represents V opened st m) {hp : Heap} (hlive : hp.live = st.heap.live)
    (hok : hp.Ok) : Represents V opened { st with heap := hp } m where
  heap := hok
  file v hv := (hr.file v hv).frame rfl rfl (by rw [hlive]; exact (hr.file v hv).live) fun _ _ _ => rfl
  node_inj := hr.node_inj
  data_inj := hr.data_inj
  null := hr.null
  handle := hr.handle

def State.moveData (st : State) (v : ℕ) (hp : Heap) (p c : ℕ) : State :=
  State.setNode
    { st with
      heap := hp.free (st.internal v).data
      mem := ByteMem.copy st.mem p (st.internal v).data (st.internal v).size }
    (st.vnodes v).internal fun e => { e with data := p, capacity := c }

theorem State.internal_moveData_self (st : State) (v : ℕ) (hp : Heap) (p c : ℕ) :
    (st.moveData v hp p c).internal v = { st.internal v with data := p, capacity := c } :=
  Function.update_self ..

theorem State.internal_moveData_of_ne (st : State) {v w : ℕ} (hp : Heap) (p c : ℕ)
    (h : (st.vnodes w).internal ≠ (st.vnodes v).internal) :
    (st.moveData v hp p c).internal w = st.internal w :=
  Function.update_of_ne h ..

theorem Represents.move (hr : Represents V opened st m) (hv : v ∈ V) {hp : Heap} {p c : ℕ}
    (hok : hp.Ok) (hlive : hp.live = (p, c) :: st.heap.live) (hc : 0 < c)
    (hapart : ∀ b ∈ st.heap.live, Apart p c b) (hcap : ∃ k, c = defaultFileSize * 2 ^ k)
    (hmax : c ≤ maxAllocSize) (hle : (st.internal v).capacity ≤ c) :
    Represents V opened (st.moveData v hp p c) m := by
  have hsize := (hr.file v hv).size_le
  have hown := hapart _ (hr.file v hv).live
  have hnew : ∀ w ∈ V, (st.internal w).data ≠ p := fun w hw =>
    Heap.Ok.start_ne hr.heap hc (hr.file w hw).live (hapart _ (hr.file w hw).live)
  have hself := st.internal_moveData_self v hp p c
  have hother : ∀ w ∈ V, w ≠ v → (st.moveData v hp p c).internal w = st.internal w := fun w hw hwv =>
    st.internal_moveData_of_ne hp p c fun heq => hwv (hr.node_inj w hw v hv heq)
  have hmem : ∀ w ∈ V, ∀ x, (st.internal w).data ≤ x →
      x < (st.internal w).data + (st.internal w).capacity → (st.moveData v hp p c).mem x = st.mem x := by
    intro w hw x hlo hhi
    have := hapart _ (hr.file w hw).live
    simp only [Apart] at this
    exact ByteMem.copy_outside _ _ _ _ (by omega)
  have hcontent : ByteMem.read (st.moveData v hp p c).mem p (st.internal v).size = m.content v := by
    change ByteMem.read (ByteMem.copy _ _ _ _) _ _ = _
    simp only [Apart] at hown
    rw [ByteMem.copy_eq_write _ _ _ _ (by omega)]
    have hread := ByteMem.read_write_same st.mem p
      (ByteMem.read st.mem (st.internal v).data (st.internal v).size)
    rw [ByteMem.read_length] at hread
    rw [hread]
    exact (hr.file v hv).content
  have hlive₁ : ∀ b, b ∈ (st.moveData v hp p c).heap.live ↔ (b = (p, c) ∨ b ∈ st.heap.live) ∧ b.1 ≠ (st.internal v).data := by
    intro b
    change b ∈ (hp.free _).live ↔ _
    rw [Heap.mem_free, hlive, List.mem_cons]
  refine ⟨hok.free _, ?_, hr.node_inj, ?_, hr.null, hr.handle⟩
  · intro w hw
    by_cases hwv : w = v
    · subst hwv
      refine ⟨(hr.file w hw).vnode, (hr.file w hw).node, ?_, ?_, ?_, ?_, ?_, ?_⟩ <;> rw [hself]
      · exact (hr.file w hw).file
      · exact (hlive₁ _).2 ⟨Or.inl rfl, (hnew w hw).symm⟩
      · exact hcap
      · exact hmax
      · exact hsize.trans hle
      · exact hcontent
    · refine (hr.file w hw).frame rfl (hother w hw hwv) ?_ (hmem w hw)
      exact (hlive₁ _).2 ⟨Or.inr (hr.file w hw).live, fun heq => hwv (hr.data_inj w hw v hv heq)⟩
  · have hdata : ∀ w ∈ V, w ≠ v → ((st.moveData v hp p c).internal w).data ≠ ((st.moveData v hp p c).internal v).data := by
      intro w hw hwv
      rw [hother w hw hwv, hself]
      exact hnew w hw
    intro w hw u hu heq
    by_cases hwv : w = v <;> by_cases huv : u = v
    · rw [hwv, huv]
    · exact absurd (by rw [← heq, hwv]) (hdata u hu huv)
    · exact absurd (by rw [heq, huv]) (hdata w hw hwv)
    · rw [hother w hw hwv, hother u hu huv] at heq
      exact hr.data_inj w hw u hu heq

/-- Growing gives the file a buffer for the bytes required or fails, and changes no content. -/
theorem tmpfsGrow_spec (hr : Represents V opened st m) (hv : v ∈ V) {required : ℕ}
    (hreq : required ≤ 2 ^ 63) (hlt : (st.internal v).capacity < required) :
    ∃ st' ok, tmpfsGrow st (st.vnodes v).internal required = some (st', ok) ∧
      Represents V opened st' m ∧ st'.files = st.files ∧ st'.vnodes = st.vnodes ∧
      (st'.internal v).size = (st.internal v).size ∧
      (ok = true → required ≤ (st'.internal v).capacity ∧ ¬ st.GrowFails v required) ∧
      (ok = false → st'.mem = st.mem ∧ st'.nodes = st.nodes ∧ st.GrowFails v required) := by
  obtain ⟨k, hk⟩ := (hr.file v hv).capacity
  have hdata : (st.internal v).data ≠ 0 := (hr.heap.start_pos _ (hr.file v hv).live).ne'
  have hpos : 0 < (st.internal v).capacity := hr.heap.size_pos _ (hr.file v hv).live
  have hmax : maxAllocSize < 2 ^ 32 := by decide
  have hsize : (st.internal v).size % 2 ^ 32 = (st.internal v).size := by
    have h1 := (hr.file v hv).size_le
    have h2 := (hr.file v hv).capacity_le
    exact Nat.mod_eq_of_lt (by omega)
  have hfuel : required ≤ defaultFileSize * 2 ^ (k + 64) := by
    have h1 : (2 : ℕ) ^ 64 ≤ 2 ^ (k + 64) := Nat.pow_le_pow_right (by norm_num) (by omega)
    have h2 : 2 ^ (k + 64) ≤ defaultFileSize * 2 ^ (k + 64) := Nat.le_mul_of_pos_left _ (by decide)
    omega
  obtain ⟨j, hloop, hj⟩ := doubleCapacity_spec hreq 64 k hfuel
  rw [← hk] at hloop hj
  have hgrows : (st.internal v).capacity < (st.internal v).capacity * 2 ^ j := hlt.trans_le hj.1
  have hfails := State.growFails_iff hlt hj
  have hcap : (st.internal v).capacity * 2 ^ j = defaultFileSize * 2 ^ (k + j) := by
    rw [hk, pow_add, Nat.mul_assoc]
  rcases st.heap.alloc_cases ((st.internal v).capacity * 2 ^ j) with
    ⟨hp, halloc, hlive⟩ | ⟨hp, p, halloc, hp0, hn0, hn, hapart, hlive⟩
  · have hok : hp.Ok := by simpa only [halloc] using hr.heap.alloc ((st.internal v).capacity * 2 ^ j)
    refine ⟨{ st with heap := hp }, false, ?_, hr.heap_congr hlive hok, rfl, rfl, rfl,
      fun hok => absurd hok Bool.false_ne_true, fun _ => ⟨rfl, rfl, hfails.2 (by rw [halloc])⟩⟩
    simp only [State.internal] at hpos hloop hgrows halloc
    simp only [tmpfsGrow, if_pos hpos, hloop, Option.bind_eq_bind, Option.bind_some, if_pos hgrows,
      State.alloc, halloc, if_true]
  · have hok : hp.Ok := by simpa only [halloc] using hr.heap.alloc ((st.internal v).capacity * 2 ^ j)
    rw [hcap, capacity_mod (by rwa [← hcap]), ← hcap] at hn hapart hlive
    have hn0' : 0 < (st.internal v).capacity * 2 ^ j := hpos.trans hgrows
    have hself := st.internal_moveData_self v hp p ((st.internal v).capacity * 2 ^ j)
    refine ⟨st.moveData v hp p ((st.internal v).capacity * 2 ^ j), true, ?_,
      hr.move hv hok hlive hn0' hapart ⟨k + j, hcap⟩ hn hgrows.le, rfl, rfl, ?_, ?_,
      fun hfail => absurd hfail.symm Bool.false_ne_true⟩
    · simp only [State.internal] at hpos hloop hgrows hdata hsize halloc
      simp only [tmpfsGrow, if_pos hpos, hloop, Option.bind_eq_bind, Option.bind_some,
        if_pos hgrows, State.alloc, halloc, if_neg hp0.ne', if_neg hdata, State.free, hsize]
      rfl
    · rw [hself]
    · intro _
      rw [hself, hfails, halloc]
      exact ⟨hj.1, hp0.ne'⟩

def State.storeData (st : State) (v pos : ℕ) (bytes : List UInt8) : State :=
  State.setNode { st with mem := ByteMem.write st.mem ((st.internal v).data + pos) bytes }
    (st.vnodes v).internal fun e => { e with size := max e.size (pos + bytes.length) }

theorem State.internal_storeData_self (st : State) (v pos : ℕ) (bytes : List UInt8) :
    (st.storeData v pos bytes).internal v =
      { st.internal v with size := max (st.internal v).size (pos + bytes.length) } :=
  Function.update_self ..

theorem State.internal_storeData_of_ne (st : State) {v w : ℕ} (pos : ℕ) (bytes : List UInt8)
    (h : (st.vnodes w).internal ≠ (st.vnodes v).internal) :
    (st.storeData v pos bytes).internal w = st.internal w :=
  Function.update_of_ne h ..

theorem tmpfsStore_eq (hpos : (st.files h).fPos = pos) (hlen : bytes.length < 2 ^ 32)
    (hend : pos + bytes.length < 2 ^ 64) :
    tmpfsStore st h (st.vnodes v).internal bytes =
      (st.storeData v pos bytes).setFile h fun e => { e with fPos := pos + bytes.length } := by
  simp only [tmpfsStore, hpos, Nat.mod_eq_of_lt hlen, List.take_length, Nat.mod_eq_of_lt hend]
  by_cases hlt : (st.internal v).size < pos + bytes.length
  · rw [if_pos (by exact hlt)]
    simp only [State.storeData, State.setNode, State.setFile]
    rw [max_eq_right (by exact hlt.le)]
    rfl
  · rw [if_neg (by exact hlt)]
    simp only [State.storeData, State.setNode, State.setFile]
    rw [max_eq_left (by exact Nat.le_of_not_lt hlt), Function.update_eq_self]
    rfl

def State.stored (st : State) (v pos : ℕ) (bytes : List UInt8) : List UInt8 :=
  ByteMem.read (ByteMem.write st.mem ((st.internal v).data + pos) bytes) (st.internal v).data
    (max (st.internal v).size (pos + bytes.length))

theorem FileHolds.stored_eq (hf : FileHolds st v bs) (hsize : pos ≤ (st.internal v).size) :
    st.stored v pos bytes = ByteMem.splice bs pos bytes := by
  rw [← hf.content]
  exact ByteMem.read_write_splice _ _ _ hsize

theorem Represents.store (hr : Represents V opened st m) (hv : v ∈ V)
    (hroom : pos + bytes.length ≤ (st.internal v).capacity) :
    Represents V opened (st.storeData v pos bytes) (m.setContent v (st.stored v pos bytes)) := by
  have hself := st.internal_storeData_self v pos bytes
  have hother : ∀ w ∈ V, w ≠ v → (st.storeData v pos bytes).internal w = st.internal w :=
    fun w hw hwv =>
      st.internal_storeData_of_ne pos bytes fun heq => hwv (hr.node_inj w hw v hv heq)
  have hdata : ∀ w ∈ V, ((st.storeData v pos bytes).internal w).data = (st.internal w).data := by
    intro w hw
    by_cases hwv : w = v
    · rw [hwv, hself]
    · rw [hother w hw hwv]
  refine ⟨hr.heap, ?_, hr.node_inj, ?_, hr.null, hr.handle⟩
  · intro w hw
    by_cases hwv : w = v
    · subst hwv
      change FileHolds _ w (Function.update m.content w _ w)
      rw [Function.update_self]
      have hf := hr.file w hw
      refine ⟨hf.vnode, hf.node, ?_, ?_, ?_, ?_, ?_, ?_⟩ <;> rw [hself]
      · exact hf.file
      · exact hf.live
      · exact hf.capacity
      · exact hf.capacity_le
      · exact max_le hf.size_le hroom
      · rfl
    · change FileHolds _ w (Function.update m.content v _ w)
      rw [Function.update_of_ne hwv]
      refine (hr.file w hw).frame rfl (hother w hw hwv) (hr.file w hw).live ?_
      intro x hlo hhi
      have hapart := hr.heap.apart_of_start (hr.file w hw).live (hr.file v hv).live
        fun heq => hwv (hr.data_inj w hw v hv heq)
      simp only [Apart] at hapart
      exact ByteMem.write_outside _ _ _ (by omega)
  · intro w hw u hu heq
    rw [hdata w hw, hdata u hu] at heq
    exact hr.data_inj w hw u hu heq

def Answered (V : Set ℕ) (s : FileSys) (m : ByteArrays) (op : FileOp) : Prop :=
  ∃ st' opened' i m', s.step op = some (⟨st', opened'⟩, i) ∧ ByteArrays.Step m (op, i) m' ∧
    Represents V opened' st' m'

theorem FileSys.step_open (ho : tmpfsOpen st v h = (st', 0)) :
    FileSys.step ⟨st, opened⟩ (.open h v) = some (⟨st', h :: opened⟩, 0, []) := by
  simp only [FileSys.step, ho, if_true]

theorem FileSys.step_close {r : ℤ} (hc : tmpfsClose st h = (st', r)) :
    FileSys.step ⟨st, opened⟩ (.close h) = some (⟨st', opened⟩, r, []) := by
  simp only [FileSys.step, hc]

theorem FileSys.step_write {buf : Option (List UInt8)} {r : ℤ}
    (hw : tmpfsWrite st h buf = some (st', r)) :
    FileSys.step ⟨st, opened⟩ (.write h buf) = some (⟨st', opened⟩, r, []) := by
  simp only [FileSys.step, hw]

theorem FileSys.step_read {buf : Bool} {len : ℕ} {r : ℤ}
    (hread : tmpfsRead st h buf len = (st', r, bytes)) :
    FileSys.step ⟨st, opened⟩ (.read h buf len) = some (⟨st', opened⟩, r, bytes) := by
  simp only [FileSys.step, hread]

theorem FileSys.step_lseek {offset whence r : ℤ} (hs : tmpfsLseek64 st h offset whence = (st', r)) :
    FileSys.step ⟨st, opened⟩ (.lseek h offset whence) = some (⟨st', opened⟩, r, []) := by
  simp only [FileSys.step, hs]

theorem Represents.answered_open (hr : Represents V opened st m) (hv : v = 0 ∨ v ∈ V) :
    Answered V ⟨st, opened⟩ m (.open h v) := by
  by_cases hnull : h = 0 ∨ v = 0
  · refine ⟨st, opened, (einval, []), m, ?_, ⟨true, ?_⟩, hr⟩
    · simp only [FileSys.step, tmpfsOpen, if_pos hnull.symm]
      rfl
    · exact if_pos hnull
  · have hopen : tmpfsOpen st v h = (st.setFile h fun e =>
        { e with fPos := 0, vnode := v, fOps := (st.vnodes v).fOps }, 0) :=
      if_neg fun h' => hnull (Or.comm.1 h')
    refine ⟨_, h :: opened, (0, []), m.setHandle h (some (v, 0)), FileSys.step_open hopen,
      ⟨true, if_neg hnull⟩, ?_⟩
    push Not at hnull
    exact hr.setHandle hnull.1 (fun k hk => List.mem_cons.1 hk)
      (.setFile (hv.resolve_left hnull.2) rfl rfl (by norm_num))

theorem Represents.answered_close (hr : Represents V opened st m) :
    Answered V ⟨st, opened⟩ m (.close h) := by
  by_cases hnull : h = 0
  · refine ⟨st, opened, (einval, []), m, ?_, ⟨true, if_pos hnull⟩, hr⟩
    simp only [FileSys.step, tmpfsClose, if_pos hnull]
  · have hclose : tmpfsClose st h = (st.setFile h fun _ => ⟨0, 0, none, 0⟩, 0) := if_neg hnull
    refine ⟨_, opened, (0, []), m.setHandle h none, FileSys.step_close hclose,
      ⟨true, if_neg hnull⟩, ?_⟩
    refine hr.setHandle hnull (fun k hk => Or.inr hk) ?_
    simp [HandleHolds, State.setFile]

theorem bmod_of_lt {n : ℕ} {i : ℤ} (h1 : 0 ≤ i) (h2 : 2 * i < n) : Int.bmod i n = i :=
  Int.bmod_eq_of_le (by omega) (by omega)

theorem toInt_of_lt {n : ℕ} (hn : n < 2 ^ 31) : toInt n = n :=
  bmod_of_lt (by omega) (by push_cast; omega)

theorem tmpfsWrite_fits (hgood : ¬ st.badFile h) (hlen : bytes.length ≠ 0)
    (hfile : (st.internal (st.files h).vnode).type = .file)
    (hfit : ((st.files h).fPos + bytes.length) % 2 ^ 64 ≤ (st.internal (st.files h).vnode).capacity) :
    tmpfsWrite st h (some bytes) =
      some (tmpfsStore st h (st.vnodes (st.files h).vnode).internal bytes, toInt bytes.length) := by
  simp only [State.internal] at hfile hfit
  simp only [tmpfsWrite, if_neg hgood, if_neg hlen, hfile, ne_eq, not_true_eq_false, if_false,
    if_neg (not_lt.2 hfit)]

theorem tmpfsWrite_grows (hgood : ¬ st.badFile h) (hlen : bytes.length ≠ 0)
    (hfile : (st.internal (st.files h).vnode).type = .file)
    (hfit : (st.internal (st.files h).vnode).capacity < ((st.files h).fPos + bytes.length) % 2 ^ 64)
    {ok : Bool} (hgrow : tmpfsGrow st (st.vnodes (st.files h).vnode).internal
      (((st.files h).fPos + bytes.length) % 2 ^ 64) = some (st', ok)) :
    tmpfsWrite st h (some bytes) =
      some (if ok then (tmpfsStore st' h (st.vnodes (st.files h).vnode).internal bytes,
        toInt bytes.length) else (st', enomem)) := by
  simp only [State.internal] at hfile hfit
  simp only [tmpfsWrite, if_neg hgood, if_neg hlen, hfile, ne_eq, not_true_eq_false, if_false,
    if_pos hfit, hgrow, Option.bind_eq_bind, Option.bind_some]
  cases ok <;> rfl

/-- `st₁` has room for `n` bytes in the file `v`, and the files and handles are those of `st`. -/
structure HasRoom (V : Set ℕ) (opened : List ℕ) (m : ByteArrays) (v n : ℕ) (st st₁ : State) : Prop where
  represents : Represents V opened st₁ m
  files : st₁.files = st.files
  vnodes : st₁.vnodes = st.vnodes
  size : (st₁.internal v).size = (st.internal v).size
  room : n ≤ (st₁.internal v).capacity

def State.afterWrite (st : State) (h v pos : ℕ) (bytes : List UInt8) : State :=
  (st.storeData v pos bytes).setFile h fun e => { e with fPos := pos + bytes.length }

/-- A write finds room, or it gets none and changes no file. -/
theorem Represents.write_cases (hr : Represents V opened st m) (hgood : ¬ st.badFile h)
    (hv : (st.files h).vnode ∈ V) (hlen0 : bytes.length ≠ 0) (hlen : bytes.length < 2 ^ 32)
    (hend : (st.files h).fPos + bytes.length ≤ 2 ^ 63) :
    (∃ st', tmpfsWrite st h (some bytes) = some (st', enomem) ∧ Represents V opened st' m ∧
        st'.mem = st.mem ∧ st'.nodes = st.nodes ∧ st'.files = st.files ∧ st'.vnodes = st.vnodes ∧
        st.GrowFails (st.files h).vnode ((st.files h).fPos + bytes.length)) ∨
      ∃ st₁, HasRoom V opened m (st.files h).vnode ((st.files h).fPos + bytes.length) st st₁ ∧
        tmpfsWrite st h (some bytes) =
          some (st₁.afterWrite h (st.files h).vnode (st.files h).fPos bytes, (bytes.length : ℤ)) ∧
        ¬ st.GrowFails (st.files h).vnode ((st.files h).fPos + bytes.length) := by
  have hf := hr.file _ hv
  have hmod : ((st.files h).fPos + bytes.length) % 2 ^ 64 = (st.files h).fPos + bytes.length :=
    Nat.mod_eq_of_lt (by omega)
  have hstore : ∀ {st₁}, HasRoom V opened m (st.files h).vnode ((st.files h).fPos + bytes.length) st st₁ →
      tmpfsStore st₁ h (st.vnodes (st.files h).vnode).internal bytes =
          st₁.afterWrite h (st.files h).vnode (st.files h).fPos bytes ∧
        toInt bytes.length = bytes.length := by
    intro st₁ hroom
    have hmax := (hroom.represents.file _ hv).capacity_le
    have hconst : maxAllocSize < 2 ^ 31 := by decide
    have hsmall := hroom.room
    rw [← hroom.vnodes]
    exact ⟨tmpfsStore_eq (by rw [hroom.files]) hlen (by omega), toInt_of_lt (by omega)⟩
  by_cases hfit : (st.files h).fPos + bytes.length ≤ (st.internal (st.files h).vnode).capacity
  · have hroom : HasRoom V opened m (st.files h).vnode ((st.files h).fPos + bytes.length) st st :=
      ⟨hr, rfl, rfl, rfl, hfit⟩
    have hwrite := tmpfsWrite_fits hgood hlen0 hf.file (hmod.trans_le hfit)
    rw [(hstore hroom).1, (hstore hroom).2] at hwrite
    exact Or.inr ⟨st, hroom, hwrite, fun hfails => absurd hfit (not_le.2 hfails.1)⟩
  · obtain ⟨st₁, ok, hgrow, hr₁, hfiles, hvnodes, hsize, hok, hfail⟩ :=
      tmpfsGrow_spec hr hv hend (not_le.1 hfit)
    have hwrite := tmpfsWrite_grows hgood hlen0 hf.file (by rw [hmod]; exact not_le.1 hfit)
      (by rw [hmod]; exact hgrow)
    cases ok with
    | false =>
        obtain ⟨hmem, hnodes, hfails⟩ := hfail rfl
        exact Or.inl ⟨st₁, hwrite, hr₁, hmem, hnodes, hfiles, hvnodes, hfails⟩
    | true =>
        have hroom : HasRoom V opened m (st.files h).vnode ((st.files h).fPos + bytes.length) st st₁ :=
          ⟨hr₁, hfiles, hvnodes, hsize, (hok rfl).1⟩
        rw [if_pos rfl, (hstore hroom).1, (hstore hroom).2] at hwrite
        exact Or.inr ⟨st₁, hroom, hwrite, (hok rfl).2⟩

theorem HasRoom.afterWrite {st₁ : State} (hroom : HasRoom V opened m v (pos + bytes.length) st st₁)
    (h0 : h ≠ 0) (hv : v ∈ V) (hvnode : (st.files h).vnode = v) :
    Represents V opened (st₁.afterWrite h v pos bytes)
      ((m.setContent v (st₁.stored v pos bytes)).setHandle h (some (v, pos + bytes.length))) := by
  have hmax := (hroom.represents.file _ hv).capacity_le
  have hconst : maxAllocSize < 2 ^ 31 := by decide
  have hsmall := hroom.room
  refine (hroom.represents.store hv hroom.room).setHandle h0 (fun _ hk => Or.inr hk) ?_
  refine .setFile hv ?_ rfl (by omega)
  rw [← hvnode, ← hroom.files]
  rfl

theorem ByteArrays.write_nil (m : ByteArrays) (hm : m.handles h = some (v, pos)) :
    m.step true (.write h (some [])) = (m, 0, []) := by
  simp only [ByteArrays.step, hm, ByteMem.splice, List.length_nil, Nat.add_zero, List.append_nil,
    List.take_append_drop, ByteArrays.setContent, ByteArrays.setHandle, Function.update_eq_self]
  simp [← hm]

theorem ByteArrays.write_some (m : ByteArrays) (hm : m.handles h = some (v, pos)) :
    m.step true (.write h (some bytes)) =
      ((m.setContent v (ByteMem.splice (m.content v) pos bytes)).setHandle h
        (some (v, pos + bytes.length)), (bytes.length : ℤ), []) := by
  simp [ByteArrays.step, hm]

theorem ByteArrays.write_fails (m : ByteArrays) (hm : m.handles h = some (v, pos))
    (hgrows : (m.content v).length < pos + bytes.length) :
    m.step false (.write h (some bytes)) = (m, enomem, []) := by
  simp [ByteArrays.step, hm, hgrows]

theorem Represents.answered_write (hr : Represents V opened st m) {buf : Option (List UInt8)}
    (hvalid : (FileSys.mk st opened).Valid V (.write h buf)) :
    Answered V ⟨st, opened⟩ m (.write h buf) := by
  obtain ⟨hh, hbuf⟩ := hvalid
  cases buf with
  | none =>
      refine ⟨st, opened, (einval, []), m, rfl, ⟨true, ?_⟩, hr⟩
      cases hm : m.handles h <;> simp only [ByteArrays.step, hm]
  | some bytes =>
      obtain ⟨hlen, hhole⟩ := hbuf bytes rfl
      rcases hr.handleHolds hh with ⟨hm, hbad⟩ | ⟨v, pos, hm, h0, hv, rfl, rfl, -, hgood⟩
      · refine ⟨st, opened, (einval, []), m, FileSys.step_write ?_, ⟨true, ?_⟩, hr⟩
        · simp only [tmpfsWrite, if_pos hbad]
        · simp only [ByteArrays.step, hm]
      by_cases hnil : bytes = []
      · subst hnil
        refine ⟨st, opened, (0, []), m, FileSys.step_write ?_, ⟨true, m.write_nil hm⟩, hr⟩
        simp only [tmpfsWrite, if_neg hgood, List.length_nil, if_true]
      have hlen0 : bytes.length ≠ 0 := fun h' => hnil (List.length_eq_zero_iff.1 h')
      have hf := hr.file _ hv
      have hsize : (st.files h).fPos ≤ (st.internal (st.files h).vnode).size := hhole hgood
      have hmax : (st.files h).fPos ≤ maxAllocSize := hsize.trans (hf.size_le.trans hf.capacity_le)
      have hconst : maxAllocSize < 2 ^ 31 := by decide
      rcases hr.write_cases hgood hv hlen0 hlen (by omega) with
        ⟨st', hwrite, hr', -, -, -, -, hgrows, -⟩ | ⟨st₁, hroom, hwrite, -⟩
      · refine ⟨st', opened, (enomem, []), m, FileSys.step_write hwrite,
          ⟨false, m.write_fails hm ?_⟩, hr'⟩
        rw [← hf.size_eq]
        exact hf.size_le.trans_lt hgrows
      · have hr' := hroom.afterWrite h0 hv rfl
        rw [(hroom.represents.file _ hv).stored_eq (hroom.size ▸ hsize)] at hr'
        exact ⟨_, opened, (bytes.length, []), _, FileSys.step_write hwrite,
          ⟨true, m.write_some hm⟩, hr'⟩

/-- A write without a hole reports that memory is out exactly when the file has to grow and `alloc` has no
block for it. -/
theorem Represents.write_enomem_iff (hr : Represents V opened st m)
    (hvalid : (FileSys.mk st opened).Valid V (.write h (some bytes))) :
    (∃ s', FileSys.step ⟨st, opened⟩ (.write h (some bytes)) = some (s', enomem, [])) ↔
      ¬ st.badFile h ∧ st.GrowFails (st.files h).vnode ((st.files h).fPos + bytes.length) := by
  have hresult : ∀ (st' : State) (r : ℤ), tmpfsWrite st h (some bytes) = some (st', r) →
      ((∃ s', FileSys.step ⟨st, opened⟩ (.write h (some bytes)) = some (s', enomem, [])) ↔ r = enomem) := by
    intro st' r hwrite
    rw [FileSys.step_write hwrite]
    constructor
    · rintro ⟨s', hs⟩
      exact congrArg (fun x : FileSys × ℤ × List UInt8 => x.2.1) (Option.some.inj hs)
    · rintro rfl
      exact ⟨_, rfl⟩
  obtain ⟨hh, hbuf⟩ := hvalid
  obtain ⟨hlen, hhole⟩ := hbuf bytes rfl
  rcases hr.handleHolds hh with ⟨-, hbad⟩ | ⟨v, pos, -, -, hv, rfl, rfl, -, hgood⟩
  · rw [hresult st einval (by simp only [tmpfsWrite, if_pos hbad])]
    exact iff_of_false (by decide) fun h' => h'.1 hbad
  have hf := hr.file _ hv
  have hsize : (st.files h).fPos ≤ (st.internal (st.files h).vnode).size := hhole hgood
  have hmax : (st.files h).fPos ≤ maxAllocSize := hsize.trans (hf.size_le.trans hf.capacity_le)
  have hconst : maxAllocSize < 2 ^ 31 := by decide
  by_cases hlen0 : bytes.length = 0
  · rw [hresult st 0 (by simp only [tmpfsWrite, if_neg hgood, if_pos hlen0])]
    refine iff_of_false (by decide) fun h' => ?_
    have hgrows := h'.2.1
    have hcap := hf.size_le
    omega
  rcases hr.write_cases hgood hv hlen0 hlen (by omega) with
    ⟨st', hwrite, -, -, -, -, -, hfails⟩ | ⟨st₁, -, hwrite, hfails⟩
  · exact iff_of_true ((hresult _ _ hwrite).2 rfl) ⟨hgood, hfails⟩
  · rw [hresult _ _ hwrite]
    have hneg : enomem < 0 := by decide
    exact iff_of_false (by omega) fun h' => hfails h'.2

theorem State.setFile_self (st : State) {f : File → File} (hf : f (st.files h) = st.files h) :
    st.setFile h f = st := by
  simp only [State.setFile, hf, Function.update_eq_self]

/-- A read of some bytes from a position inside the file. -/
theorem tmpfsRead_inside (hgood : ¬ st.badFile h) (hfile : (st.internal (st.files h).vnode).type = .file)
    {len : ℕ} (hlen : len ≠ 0) (hpos : (st.files h).fPos < (st.internal (st.files h).vnode).size) :
    let node := st.internal (st.files h).vnode
    let pos := (st.files h).fPos
    let readable := if node.size < (pos + len) % 2 ^ 64 then node.size - pos else len
    tmpfsRead st h true len =
      (st.setFile h fun e => { e with fPos := (pos + readable) % 2 ^ 64 }, toInt readable,
        ByteMem.read st.mem (node.data + pos) (readable % 2 ^ 32)) := by
  have hnull : ¬ (st.badFile h ∨ true = false) := fun h' => h'.elim hgood Bool.noConfusion
  unfold tmpfsRead
  rw [if_neg hnull, if_neg hlen]
  simp only [if_neg (not_not.2 hfile), if_neg (not_le.2 hpos)]

/-- A read delivers the bytes from the position to the end of the file, but at most `len`. -/
theorem tmpfsRead_spec (hgood : ¬ st.badFile h) (hfile : (st.internal (st.files h).vnode).type = .file)
    {len k : ℕ} (hk : k = min len ((st.internal (st.files h).vnode).size - (st.files h).fPos))
    (hfits : 0 < k → (st.files h).fPos + len < 2 ^ 64 ∧ k < 2 ^ 31) :
    tmpfsRead st h true len = (st.setFile h fun e => { e with fPos := e.fPos + k }, (k : ℤ),
      ByteMem.read st.mem ((st.internal (st.files h).vnode).data + (st.files h).fPos) k) := by
  by_cases hinside : len ≠ 0 ∧ (st.files h).fPos < (st.internal (st.files h).vnode).size
  · obtain ⟨hlen0, hpos⟩ := hinside
    obtain ⟨hlen, hint⟩ := hfits (by omega)
    have hk' : (if (st.internal (st.files h).vnode).size < ((st.files h).fPos + len) % 2 ^ 64 then
        (st.internal (st.files h).vnode).size - (st.files h).fPos else len) = k := by
      rw [Nat.mod_eq_of_lt hlen]
      split_ifs <;> omega
    rw [tmpfsRead_inside hgood hfile hlen0 hpos]
    simp only [hk', toInt_of_lt hint, Nat.mod_eq_of_lt (show k < 2 ^ 32 by omega),
      Nat.mod_eq_of_lt (show (st.files h).fPos + k < 2 ^ 64 by omega)]
    rfl
  · have hnull : ¬ (st.badFile h ∨ true = false) := fun h' => h'.elim hgood Bool.noConfusion
    rw [show k = 0 by omega, st.setFile_self rfl]
    unfold tmpfsRead
    rw [if_neg hnull]
    by_cases hlen0 : len = 0
    · rw [if_pos hlen0]
      rfl
    · have hend : (st.internal (st.files h).vnode).size ≤ (st.files h).fPos := by omega
      rw [if_neg hlen0, if_neg (not_not.2 hfile), if_pos hend]
      rfl

theorem Represents.answered_read (hr : Represents V opened st m) {buf : Bool} {len : ℕ}
    (hvalid : (FileSys.mk st opened).Valid V (.read h buf len)) :
    Answered V ⟨st, opened⟩ m (.read h buf len) := by
  obtain ⟨hh, hlen⟩ := hvalid
  have hnull : ∀ b : Bool, st.badFile h ∨ b = false →
      FileSys.step ⟨st, opened⟩ (.read h b len) = some (⟨st, opened⟩, einval, []) := by
    intro b hbad
    exact FileSys.step_read (if_pos hbad)
  rcases hr.handleHolds hh with ⟨hm, hbad⟩ | ⟨v, pos, hm, h0, hv, rfl, rfl, hpos, hgood⟩
  · refine ⟨st, opened, (einval, []), m, hnull buf (Or.inl hbad), ⟨true, ?_⟩, hr⟩
    simp only [ByteArrays.step, hm]
  cases buf with
  | false =>
      refine ⟨st, opened, (einval, []), m, hnull false (Or.inr rfl), ⟨true, ?_⟩, hr⟩
      simp only [ByteArrays.step, hm]
  | true =>
      have hf := hr.file _ hv
      have hconst : maxAllocSize < 2 ^ 31 := by decide
      have hsize := hf.size_le.trans hf.capacity_le
      obtain ⟨k, hk⟩ :
          ∃ k, k = min len ((st.internal (st.files h).vnode).size - (st.files h).fPos) := ⟨_, rfl⟩
      have hread := tmpfsRead_spec hgood hf.file hk fun _ => by omega
      have hbytes : ((m.content (st.files h).vnode).drop (st.files h).fPos).take len =
          ByteMem.read st.mem ((st.internal (st.files h).vnode).data + (st.files h).fPos) k := by
        rw [← hf.content, ByteMem.slice_read, ← hk]
      have hend : (st.files h).fPos + k < 2 ^ 63 := by omega
      refine ⟨_, opened, (k, _), m.setHandle h (some ((st.files h).vnode, (st.files h).fPos + k)),
        FileSys.step_read hread, ⟨true, ?_⟩,
        hr.setHandle h0 (fun _ hk => Or.inr hk) (.setFile hv rfl rfl hend)⟩
      simp only [ByteArrays.step, hm, hbytes, ByteMem.read_length]

/-- The target of a seek, from a base that a position can have. -/
theorem bmod_seek {base offset : ℤ} (hbase : 0 ≤ base) (hbase' : base < 2 ^ 63)
    (hlo : -2 ^ 63 ≤ offset) (hhi : offset < 2 ^ 63) :
    (Int.bmod (base + offset) (2 ^ 64) < 0 ↔ base + offset < 0 ∨ 2 ^ 63 ≤ base + offset) ∧
      (¬ Int.bmod (base + offset) (2 ^ 64) < 0 → Int.bmod (base + offset) (2 ^ 64) = base + offset) := by
  rw [Int.bmod_def]
  norm_num only at *
  split_ifs <;> omega

theorem ByteArrays.seekBase_bounds (m : ByteArrays) {whence base : ℤ}
    (hpos : pos < 2 ^ 63) (hsize : (m.content v).length < 2 ^ 63)
    (h : m.seekBase v pos whence = some base) : 0 ≤ base ∧ base < 2 ^ 63 := by
  simp only [ByteArrays.seekBase] at h
  split_ifs at h <;> obtain rfl := Option.some.inj h <;> omega

theorem tmpfsLseek64_eq (hgood : ¬ st.badFile h)
    (hfile : (st.internal (st.files h).vnode).type = .file)
    (hsize : (st.internal (st.files h).vnode).size = (m.content (st.files h).vnode).length)
    (offset whence : ℤ) :
    tmpfsLseek64 st h offset whence =
      match m.seekBase (st.files h).vnode (st.files h).fPos whence with
      | none => (st, einval)
      | some base =>
          if Int.bmod (base + offset) (2 ^ 64) < 0 then (st, einval)
          else (st.setFile h fun e => { e with fPos := (Int.bmod (base + offset) (2 ^ 64)).toNat },
            Int.bmod (base + offset) (2 ^ 64)) := by
  rcases hbase : m.seekBase (st.files h).vnode (st.files h).fPos whence with _ | base
  all_goals
    rw [ByteArrays.seekBase, ← hsize] at hbase
    simp only [tmpfsLseek64, if_neg hgood, hfile, ne_eq, not_true_eq_false, if_false, hbase]

theorem Represents.answered_lseek (hr : Represents V opened st m) {offset whence : ℤ}
    (hvalid : (FileSys.mk st opened).Valid V (.lseek h offset whence)) :
    Answered V ⟨st, opened⟩ m (.lseek h offset whence) := by
  obtain ⟨hh, hlo, hhi⟩ := hvalid
  rcases hr.handleHolds hh with ⟨hm, hbad⟩ | ⟨v, pos, hm, h0, hv, rfl, rfl, hpos, hgood⟩
  · refine ⟨st, opened, (einval, []), m, FileSys.step_lseek (if_pos hbad), ⟨true, ?_⟩, hr⟩
    simp only [ByteArrays.step, hm]
  have hf := hr.file _ hv
  have hseek := tmpfsLseek64_eq hgood hf.file hf.size_eq offset whence
  cases hbase : m.seekBase (st.files h).vnode (st.files h).fPos whence with
  | none =>
      rw [hbase] at hseek
      refine ⟨st, opened, (einval, []), m, FileSys.step_lseek hseek, ⟨true, ?_⟩, hr⟩
      simp only [ByteArrays.step, hm, hbase]
  | some base =>
      rw [hbase] at hseek
      have hconst : maxAllocSize < 2 ^ 31 := by decide
      have hlen : (m.content (st.files h).vnode).length < 2 ^ 63 := by
        rw [← hf.size_eq]
        have := hf.size_le.trans hf.capacity_le
        omega
      obtain ⟨hbase0, hbase63⟩ := m.seekBase_bounds hpos hlen hbase
      obtain ⟨hneg, hval⟩ := bmod_seek hbase0 hbase63 hlo hhi
      by_cases hout : base + offset < 0 ∨ 2 ^ 63 ≤ base + offset
      · simp only [if_pos (hneg.2 hout)] at hseek
        refine ⟨st, opened, (einval, []), m, FileSys.step_lseek hseek, ⟨true, ?_⟩, hr⟩
        simp only [ByteArrays.step, hm, hbase, if_pos hout]
      · simp only [hval (mt hneg.1 hout), if_neg fun h' => hout (Or.inl h')] at hseek
        have hend : (base + offset).toNat < 2 ^ 63 := by omega
        refine ⟨_, opened, (base + offset, []), m.setHandle h
          (some ((st.files h).vnode, (base + offset).toNat)), FileSys.step_lseek hseek, ⟨true, ?_⟩,
          hr.setHandle h0 (fun _ hk => Or.inr hk) (.setFile hv rfl rfl hend)⟩
        simp only [ByteArrays.step, hm, hbase, if_neg hout]

/-- The fields of a node that a new child does not change. -/
theorem append_fields (st : State) (p v x : ℕ) :
    ((st.setNode p (·.append v)).nodes x).type = (st.nodes x).type ∧
      ((st.setNode p (·.append v)).nodes x).size = (st.nodes x).size ∧
      ((st.setNode p (·.append v)).nodes x).capacity = (st.nodes x).capacity ∧
      ((st.setNode p (·.append v)).nodes x).data = (st.nodes x).data := by
  by_cases hx : x = p
  · have heq : (st.setNode p (·.append v)).nodes x = (st.nodes x).append v := by
      rw [hx]
      exact Function.update_self ..
    rw [heq]
    exact ⟨rfl, rfl, rfl, rfl⟩
  · have heq : (st.setNode p (·.append v)).nodes x = st.nodes x := Function.update_of_ne hx ..
    rw [heq]
    exact ⟨rfl, rfl, rfl, rfl⟩

theorem FreshFiles.append (hf : FreshFiles st V) (p c : ℕ) :
    FreshFiles (st.setNode p (·.append c)) V := by
  have hfields := fun u => append_fields st p c (st.vnodes u).internal
  refine ⟨hf.heap, hf.vnode, hf.node, ?_, ?_, hf.node_inj, ?_⟩
  · intro u hu
    exact ⟨(hfields u).1.trans (hf.file u hu).1, (hfields u).2.1.trans (hf.file u hu).2.1,
      (hfields u).2.2.1.trans (hf.file u hu).2.2⟩
  · intro u hu
    change (((st.setNode p (·.append c)).nodes (st.vnodes u).internal).data, _) ∈ _
    rw [(hfields u).2.2.2]
    exact hf.data u hu
  · intro u hu w hw heq
    exact hf.data_inj u hu w hw
      ((hfields u).2.2.2.symm.trans (heq.trans (hfields w).2.2.2))

theorem FreshFiles.create (hf : FreshFiles st V) {dir target : ℕ} {name : List UInt8}
    (hc : tmpfsCreate st dir target name = (st', 0, v)) : FreshFiles st' (insert v V) := by
  have hcan : CanCreate st dir name := by
    by_contra hno
    obtain ⟨r, t, heq, hr, -⟩ := tmpfsCreateOrMkdir_refused hno target .file
    have hr0 : (0 : ℤ) = r := congrArg (fun x => x.2.1) (hc.symm.trans heq)
    omega
  rcases tmpfsCreateOrMkdir_cases hf.heap hcan target .file with
    ⟨st₁, heq, -⟩ | ⟨st₁', w, heq, hv0, st₁, n, data, -, rfl, hext, hvnode, hnode⟩
  · have hr : (0 : ℤ) = enomem := congrArg (fun x => x.2.1) (hc.symm.trans heq)
    exact absurd hr (by decide)
  obtain ⟨rfl, -, rfl⟩ : st' = _ ∧ (0 : ℤ) = 0 ∧ v = w := by
    have := hc.symm.trans heq
    simpa only [Prod.mk.injEq] using this
  rw [nodeBlocks, if_pos rfl] at hext
  have hlive : ∀ b ∈ [(v, sizeofVnode), (data, defaultFileSize), (n, sizeofNode)],
      b ∈ st₁.heap.live := by
    intro b hb
    rw [hext.live]
    exact List.mem_append_left _ hb
  have hnfresh := hext.fresh (p := n) (n := sizeofNode) (by simp)
  have hdfresh := hext.fresh (p := data) (n := defaultFileSize) (by simp)
  have hvn : ∀ u ∈ V, st₁.vnodes u = st.vnodes u := fun u hu => hext.vnode _ (hf.vnode u hu).2
  have hold : ∀ u ∈ V, st₁.internal u = st.internal u := fun u hu =>
    (congrArg (fun x : Vnode => st₁.nodes x.internal) (hvn u hu)).trans (hext.node _ (hf.node u hu))
  have hnew : st₁.internal v = createdNode name .file (st.vnodes dir).internal data :=
    (congrArg (fun x : Vnode => st₁.nodes x.internal) hvnode).trans hnode
  have hnode_ne : ∀ u ∈ V, (st₁.vnodes u).internal ≠ (st₁.vnodes v).internal := by
    intro u hu
    rw [hvn u hu, hvnode]
    exact hnfresh _ (hf.node u hu)
  have hdata_ne : ∀ u ∈ V, (st₁.internal u).data ≠ (st₁.internal v).data := by
    intro u hu
    rw [hold u hu, hnew]
    exact hdfresh _ (hf.data u hu)
  refine FreshFiles.append ⟨hext.ok, ?_, ?_, ?_, ?_, ?_, ?_⟩ _ _
  · rintro u (rfl | hu)
    · exact ⟨hv0, hlive _ (by simp)⟩
    · exact ⟨(hf.vnode u hu).1, hext.mem_live (hf.vnode u hu).2⟩
  · rintro u (rfl | hu)
    · rw [hvnode]
      exact hlive _ (by simp)
    · rw [hvn u hu]
      exact hext.mem_live (hf.node u hu)
  · rintro u (rfl | hu)
    · rw [hnew]
      exact ⟨rfl, rfl, rfl⟩
    · rw [hold u hu]
      exact hf.file u hu
  · rintro u (rfl | hu)
    · rw [hnew]
      exact hlive _ (by simp [createdNode])
    · rw [hold u hu]
      exact hext.mem_live (hf.data u hu)
  · rintro u (rfl | hu) w (rfl | hw) heq
    · rfl
    · exact absurd heq.symm (hnode_ne w hw)
    · exact absurd heq (hnode_ne u hu)
    · rw [hvn u hu, hvn w hw] at heq
      exact hf.node_inj u hu w hw heq
  · rintro u (rfl | hu) w (rfl | hw) heq
    · rfl
    · exact absurd heq.symm (hdata_ne w hw)
    · exact absurd heq (hdata_ne u hu)
    · rw [hold u hu, hold w hw] at heq
      exact hf.data_inj u hu w hw heq

theorem Represents.answered {s : FileSys} (hr : Represents V s.opened s.st m) {op : FileOp}
    (hvalid : s.Valid V op) : Answered V s m op := by
  cases op with
  | «open» h v => exact hr.answered_open hvalid
  | close h => exact hr.answered_close
  | write h buf => exact hr.answered_write hvalid
  | read h buf len => exact hr.answered_read hvalid
  | lseek h offset whence => exact hr.answered_lseek hvalid

theorem fileSys_simulates : Runs.Simulates (FileSys.Step V) ByteArrays.Step
    fun s m => Represents V s.opened s.st m := by
  rintro s ⟨op, i⟩ s' m hr ⟨hvalid, hstep⟩
  obtain ⟨st₁, opened₁, i₁, m₁, hstep₁, hmodel, hr₁⟩ := hr.answered hvalid
  obtain ⟨rfl, rfl⟩ := Prod.mk.inj (Option.some.inj (hstep.symm.trans hstep₁))
  exact ⟨m₁, hr₁, hmodel⟩

/-- Every run of the files is a run of the reference model with the same results. In each state the
files and handles hold what the model says, each size is at most the capacity, which is the size of
the block that `alloc` gave, every operation returns, and a write reports that memory is out exactly when
the file has to grow and `alloc` fails. -/
theorem tmpfs_refines_byteArrays (hf : FreshFiles st V) {tr : List (FileOp × ℤ × List UInt8)}
    {s : FileSys} (hrun : Runs.Trace (FileSys.Step V) ⟨st, []⟩ tr s) :
    (∃ m, Runs.Trace ByteArrays.Step ByteArrays.fresh tr m ∧ Represents V s.opened s.st m) ∧
      (∀ op, s.Valid V op → ∃ s' i, s.step op = some (s', i)) ∧
      ∀ h bytes, s.Valid V (.write h (some bytes)) →
        ((∃ s', s.step (.write h (some bytes)) = some (s', enomem, [])) ↔
          ¬ s.st.badFile h ∧
            s.st.GrowFails (s.st.files h).vnode ((s.st.files h).fPos + bytes.length)) := by
  obtain ⟨m, hr, htrace⟩ := fileSys_simulates.run (t := ByteArrays.fresh) hf.represents hrun
  refine ⟨⟨m, htrace, hr⟩, fun op hvalid => ?_, fun h bytes hvalid => hr.write_enomem_iff hvalid⟩
  obtain ⟨st', opened', i, -, hstep, -, -⟩ := hr.answered hvalid
  exact ⟨⟨st', opened'⟩, i, hstep⟩

def oneFile : State where
  heap := ⟨[(4096, sizeofVnode), (8192, sizeofNode), (12288, defaultFileSize)], fun _ => 0, 0⟩
  mem := fun _ => 0
  vnodes := fun _ => ⟨0, some .tmpfs, some .tmpfs, 8192, 0, false⟩
  nodes := fun _ => createdNode [102] .file 0 12288
  mounts := fun _ => ⟨0, 0⟩
  files := fun _ => ⟨0, 0, none, 0⟩
  fsTable := fun _ => ⟨[], none⟩
  filesystems := []
  rootfs := 0

theorem oneFile_fresh : FreshFiles oneFile {4096} where
  heap := ⟨by decide, by decide, by decide⟩
  vnode v hv := by rw [hv]; decide
  node v hv := by rw [hv]; decide
  file v hv := by rw [hv]; decide
  data v hv := by rw [hv]; decide
  node_inj v hv w hw _ := hv.trans hw.symm
  data_inj v hv w hw _ := hv.trans hw.symm

def oneGrowth : State := { oneFile with heap := { oneFile.heap with plan := fun n => if n = 0 then 32768 else 0 } }

theorem oneGrowth_fresh : FreshFiles oneGrowth {4096} :=
  { oneFile_fresh with heap := ⟨by decide, by decide, by decide⟩ }

def FileSys.after (s : FileSys) (op : FileOp) : FileSys := ((s.step op).map Prod.fst).getD s

theorem FileSys.step_after {s : FileSys} (op : FileOp) (i : ℤ × List UInt8) (hvalid : s.Valid V op)
    (hresult : (s.step op).map Prod.snd = some i) : FileSys.Step V s (op, i) (s.after op) := by
  obtain ⟨⟨s', j⟩, hs, rfl⟩ := Option.map_eq_some_iff.1 hresult
  refine ⟨hvalid, ?_⟩
  rw [FileSys.after, hs]
  rfl

def twoHandles : FileSys :=
  let opened := ((FileSys.mk oneGrowth []).after (.open 16 4096)).after (.open 24 4096)
  opened.after (.write 16 (some (List.replicate 4097 65)))

/-- The other handle reads two bytes and writes behind them, and there is no memory for another growth. -/
def fullFile : FileSys :=
  let overwritten := (twoHandles.after (.read 24 true 2)).after (.write 24 (some [66]))
  overwritten.after (.write 16 (some (List.replicate 4096 67)))

theorem twoHandles_run : Runs.Trace (FileSys.Step {4096}) ⟨oneGrowth, []⟩
    [(.open 16 4096, 0, []), (.open 24 4096, 0, []),
      (.write 16 (some (List.replicate 4097 65)), 4097, [])] twoHandles := by
  have hopen := (Runs.Trace.nil.snoc (FileSys.step_after (V := {4096}) (s := ⟨oneGrowth, []⟩)
    (.open 16 4096) (0, []) (Or.inr rfl) rfl)).snoc (FileSys.step_after (.open 24 4096) (0, []) (Or.inr rfl) rfl)
  refine hopen.snoc (FileSys.step_after _ (4097, []) ⟨Or.inr (by decide +kernel), ?_⟩ (by decide +kernel))
  rintro _ ⟨⟩
  exact ⟨by decide +kernel, fun _ => by decide +kernel⟩

theorem fullFile_run : Runs.Trace (FileSys.Step {4096}) ⟨oneGrowth, []⟩
    [(.open 16 4096, 0, []), (.open 24 4096, 0, []),
      (.write 16 (some (List.replicate 4097 65)), 4097, []), (.read 24 true 2, 2, [65, 65]),
      (.write 24 (some [66]), 1, []), (.write 16 (some (List.replicate 4096 67)), enomem, [])] fullFile := by
  have hread : FileSys.Step {4096} twoHandles (.read 24 true 2, 2, [65, 65]) _ :=
    FileSys.step_after _ _ ⟨Or.inr (by decide +kernel), by decide⟩ (by decide +kernel)
  have hwrite : FileSys.Step {4096} (twoHandles.after (.read 24 true 2)) (.write 24 (some [66]), 1, [])
      ((twoHandles.after (.read 24 true 2)).after (.write 24 (some [66]))) := by
    refine FileSys.step_after _ _ ⟨Or.inr (by decide +kernel), ?_⟩ (by decide +kernel)
    rintro _ ⟨⟩
    exact ⟨by decide, fun _ => by decide +kernel⟩
  refine ((twoHandles_run.snoc hread).snoc hwrite).snoc (FileSys.step_after _ (enomem, [])
    ⟨Or.inr (by decide +kernel), ?_⟩ (by decide +kernel))
  rintro _ ⟨⟩
  exact ⟨by decide +kernel, fun _ => by decide +kernel⟩

/-- The model has the same results, and the last write fails because `alloc` does. -/
theorem tmpfs_refines_fullFile :
    (∃ m, Runs.Trace ByteArrays.Step ByteArrays.fresh
      [(.open 16 4096, 0, []), (.open 24 4096, 0, []),
        (.write 16 (some (List.replicate 4097 65)), 4097, []), (.read 24 true 2, 2, [65, 65]),
        (.write 24 (some [66]), 1, []), (.write 16 (some (List.replicate 4096 67)), enomem, [])] m ∧
        Represents {4096} fullFile.opened fullFile.st m) ∧
      fullFile.st.GrowFails 4096 8193 := by
  have hvalid : fullFile.Valid {4096} (.write 16 (some (List.replicate 4096 67))) := by
    refine ⟨Or.inr (by decide +kernel), ?_⟩
    rintro _ ⟨⟩
    exact ⟨by decide +kernel, fun _ => by decide +kernel⟩
  obtain ⟨hmodel, -, henomem⟩ := tmpfs_refines_byteArrays oneGrowth_fresh fullFile_run
  have hfails : (fullFile.step (.write 16 (some (List.replicate 4096 67)))).map Prod.snd =
      some (enomem, []) := by decide +kernel
  have hgrow := ((henomem 16 _ hvalid).1 ⟨_, (FileSys.step_after _ _ hvalid hfails).2⟩).2
  have hfile : (fullFile.st.files 16).vnode = 4096 ∧ (fullFile.st.files 16).fPos = 4097 := by
    decide +kernel
  rw [hfile.1, hfile.2, List.length_replicate] at hgrow
  exact ⟨hmodel, hgrow⟩

end OscKernel.Vfs
