import OscKernel.TmpfsRefines

/-!
# Writing past the end

A client may seek past the end of a file and write there, which leaves a hole. The files stay well
formed in such runs. A write returns unless its end is past `2 ^ 63`, and what a read delivers does
not depend on what the memory held before as long as no read touches a hole.
-/

namespace OscKernel.Vfs

open Mm (maxAllocSize)

variable {V : Set ℕ} {opened : List ℕ} {st st' : State} {m : ByteArrays} {s s' : FileSys}
  {v h pos len j : ℕ} {bytes bs : List UInt8} {b : UInt8} {op : FileOp} {i : FileOp × ℤ × List UInt8}

namespace FileSys

/-- As `Valid`, but a write may begin anywhere and a read may ask for any number of bytes. -/
def Allowed (V : Set ℕ) (s : FileSys) : FileOp → Prop
  | .write h buf => (h = 0 ∨ h ∈ s.opened) ∧ ∀ bytes ∈ buf, bytes.length < 2 ^ 32
  | .read h _ len => (h = 0 ∨ h ∈ s.opened) ∧ len < 2 ^ 64
  | op => s.Valid V op

def AllowedStep (V : Set ℕ) (s : FileSys) (i : FileOp × ℤ × List UInt8) (s' : FileSys) : Prop :=
  s.Allowed V i.1 ∧ s.step i.1 = some (s', i.2)

end FileSys

abbrev Writes := ℕ → ℕ → Option UInt8

def Writes.put (w : Writes) (v pos : ℕ) (bytes : List UInt8) : Writes :=
  Function.update w v fun j => if pos ≤ j ∧ j < pos + bytes.length then bytes[j - pos]? else w v j

structure Recorded where
  sys : FileSys
  writes : Writes

def Recorded.record (c : Recorded) : FileOp × ℤ × List UInt8 → Writes
  | (.write h (some bytes), x, _) =>
      if x = bytes.length then c.writes.put (c.sys.st.files h).vnode (c.sys.st.files h).fPos bytes
      else c.writes
  | _ => c.writes

/-- Past `2 ^ 63` the capacity wraps around to `0` and stays there. -/
theorem doubleCapacity_diverges {required : ℕ} (hreq : 2 ^ 63 < required) {fuel c : ℕ}
    (hc : c = 0 ∨ ∃ k < 64, c = 2 ^ k) : doubleCapacity required fuel c = none := by
  induction fuel generalizing c with
  | zero => rfl
  | succ fuel ih =>
      unfold doubleCapacity
      rcases hc with rfl | ⟨k, hk, rfl⟩
      · rw [if_pos (by omega)]
        exact ih (Or.inl rfl)
      · have hle : 2 ^ k ≤ 2 ^ 63 := Nat.pow_le_pow_right (by norm_num) (by omega)
        rw [if_pos (by omega)]
        apply ih
        by_cases hlast : k = 63
        · left
          rw [hlast]
          norm_num
        · right
          refine ⟨k + 1, by omega, ?_⟩
          rw [← pow_succ]
          exact Nat.mod_eq_of_lt (Nat.pow_lt_pow_right (by norm_num) (by omega))

theorem FileHolds.capacity_pow (hf : FileHolds st v bs) :
    ∃ k < 64, (st.internal v).capacity = 2 ^ k := by
  obtain ⟨k, hk⟩ := hf.capacity
  have hpow : (st.internal v).capacity = 2 ^ (12 + k) := by
    rw [hk, pow_add]
    rfl
  refine ⟨12 + k, ?_, hpow⟩
  have hmax := hf.capacity_le
  have hconst : maxAllocSize < 2 ^ 64 := by decide
  rw [hpow] at hmax
  exact (Nat.pow_lt_pow_iff_right (by norm_num)).1 (hmax.trans_lt hconst)

theorem Represents.write_diverges (hr : Represents V opened st m) (hgood : ¬ st.badFile h)
    (hv : (st.files h).vnode ∈ V) (hpos : (st.files h).fPos < 2 ^ 63) (hlen : bytes.length < 2 ^ 32)
    (hend : 2 ^ 63 < (st.files h).fPos + bytes.length) : tmpfsWrite st h (some bytes) = none := by
  have hf := hr.file _ hv
  obtain ⟨k, hk, hcap⟩ := hf.capacity_pow
  have hmod : ((st.files h).fPos + bytes.length) % 2 ^ 64 = (st.files h).fPos + bytes.length :=
    Nat.mod_eq_of_lt (by omega)
  have hlen0 : ¬ bytes.length = 0 := by omega
  have hfile : ¬ (st.nodes (st.vnodes (st.files h).vnode).internal).type ≠ .file := not_not.2 hf.file
  have hcap0 : 0 < (st.nodes (st.vnodes (st.files h).vnode).internal).capacity :=
    hr.heap.size_pos _ hf.live
  have hgrows : (st.nodes (st.vnodes (st.files h).vnode).internal).capacity <
      (st.files h).fPos + bytes.length := by
    have hmax := hf.capacity_le
    have hconst : maxAllocSize < 2 ^ 31 := by decide
    have hsmall : (st.nodes (st.vnodes (st.files h).vnode).internal).capacity ≤ maxAllocSize := hmax
    omega
  have hloop : doubleCapacity ((st.files h).fPos + bytes.length) 65
      (st.nodes (st.vnodes (st.files h).vnode).internal).capacity = none :=
    doubleCapacity_diverges hend (Or.inr ⟨k, hk, hcap⟩)
  simp only [tmpfsWrite, if_neg hgood, if_neg hlen0, if_neg hfile, hmod, if_pos hgrows, tmpfsGrow,
    if_pos hcap0, hloop, Option.bind_eq_bind, Option.bind_none]

/-- A read moves the position to one that a handle can have. -/
theorem Represents.read_moves (hr : Represents V opened st m) (hgood : ¬ st.badFile h)
    (hv : (st.files h).vnode ∈ V) (hpos : (st.files h).fPos < 2 ^ 63) (hlen : len < 2 ^ 64) :
    ∃ k x bytes, tmpfsRead st h true len = (st.setFile h fun e => { e with fPos := k }, x, bytes) ∧
      k < 2 ^ 63 := by
  have hf := hr.file _ hv
  have hsmall := hf.size_le.trans hf.capacity_le
  have hconst : maxAllocSize < 2 ^ 31 := by decide
  by_cases hinside : len ≠ 0 ∧ (st.files h).fPos < (st.internal (st.files h).vnode).size
  · have hread := tmpfsRead_inside hgood hf.file hinside.1 hinside.2
    dsimp only at hread
    refine ⟨_, _, _, hread, ?_⟩
    split_ifs with hclip
    · omega
    · by_cases hwrap : (st.files h).fPos + len < 2 ^ 64
      · rw [Nat.mod_eq_of_lt hwrap] at hclip ⊢
        omega
      · rw [Nat.mod_eq_sub_mod (not_lt.1 hwrap), Nat.mod_eq_of_lt (by omega)]
        omega
  · have hnone : min len ((st.internal (st.files h).vnode).size - (st.files h).fPos) = 0 := by omega
    have hread := tmpfsRead_spec hgood hf.file hnone.symm fun h0 => absurd h0 (lt_irrefl 0)
    exact ⟨_, _, _, hread, hpos⟩

theorem Writes.put_some {w : Writes} {u : ℕ} (h : w.put v pos bytes u j = some b) :
    (u = v ∧ pos ≤ j ∧ bytes[j - pos]? = some b) ∨
      (w u j = some b ∧ ¬ (u = v ∧ pos ≤ j ∧ j < pos + bytes.length)) := by
  unfold Writes.put at h
  by_cases hu : u = v
  · subst hu
    rw [Function.update_self] at h
    split_ifs at h with hin
    · exact Or.inl ⟨rfl, hin.1, h⟩
    · exact Or.inr ⟨h, fun hno => hin hno.2⟩
  · rw [Function.update_of_ne hu] at h
    exact Or.inr ⟨h, fun hno => hu hno.1⟩

theorem FileHolds.byte (hf : FileHolds st v bs) (hb : bs[j]? = some b) :
    j < (st.internal v).size ∧ st.mem ((st.internal v).data + j) = b := by
  have hj : j < (st.internal v).size := by
    rw [hf.size_eq]
    exact (List.getElem?_eq_some_iff.1 hb).1
  rw [← hf.content, ByteMem.read_getElem? _ _ _ hj] at hb
  exact ⟨hj, Option.some.inj hb⟩

theorem stored_new (st : State) (v : ℕ) (hj : pos ≤ j) (hb : bytes[j - pos]? = some b) :
    (st.stored v pos bytes)[j]? = some b := by
  have hlt : j - pos < bytes.length := (List.getElem?_eq_some_iff.1 hb).1
  have hread := ByteMem.read_write_same st.mem ((st.internal v).data + pos) bytes
  rw [← hread, ByteMem.read_getElem? _ _ _ hlt, Option.some.injEq,
    show (st.internal v).data + pos + (j - pos) = (st.internal v).data + j by omega] at hb
  rw [State.stored, ByteMem.read_getElem? _ _ _ (by omega), hb]

theorem FileHolds.stored_old (hf : FileHolds st v bs) (hb : bs[j]? = some b)
    (hout : ¬ (pos ≤ j ∧ j < pos + bytes.length)) : (st.stored v pos bytes)[j]? = some b := by
  obtain ⟨hj, hmem⟩ := hf.byte hb
  rw [State.stored, ByteMem.read_getElem? _ _ _ (by omega),
    ByteMem.write_outside _ _ _ (by omega), hmem]

def Recorded.Sound (V : Set ℕ) (c : Recorded) : Prop :=
  ∃ m, Represents V c.sys.opened c.sys.st m ∧
    ∀ v ∈ V, ∀ j b, c.writes v j = some b → (m.content v)[j]? = some b

theorem ByteArrays.step_content (m : ByteArrays) (room : Bool) (hop : ∀ h buf, op ≠ .write h buf) :
    (m.step room op).1.content = m.content := by
  cases op with
  | write h buf => exact absurd rfl (hop h buf)
  | «open» h v =>
      simp only [ByteArrays.step]
      split_ifs <;> rfl
  | close h =>
      simp only [ByteArrays.step]
      split_ifs <;> rfl
  | read h buf len =>
      simp only [ByteArrays.step]
      split <;> rfl
  | lseek h offset whence =>
      simp only [ByteArrays.step]
      split
      · split
        · split_ifs <;> rfl
        · rfl
      · rfl

theorem record_of_not_write {c : Recorded} (hop : ∀ h buf, i.1 ≠ .write h buf) :
    c.record i = c.writes := by
  obtain ⟨op, x⟩ := i
  cases op with
  | write h buf => exact absurd rfl (hop h buf)
  | «open» h v => rfl
  | close h => rfl
  | read h buf len => rfl
  | lseek h offset whence => rfl

section Steps

variable {c : Recorded}

/-- A step of the kind that the reference model has too. -/
theorem Recorded.Sound.valid (h : c.Sound V) (hvalid : c.sys.Valid V i.1)
    (hop : ∀ h buf, i.1 ≠ .write h buf) (heq : c.sys.step i.1 = some (s', i.2)) :
    Recorded.Sound V ⟨s', c.record i⟩ := by
  obtain ⟨m, hr, hw⟩ := h
  obtain ⟨st₁, opened₁, i₁, m₁, hstep₁, ⟨room, hmodel⟩, hr₁⟩ := hr.answered hvalid
  obtain ⟨rfl, -⟩ := Prod.mk.inj (Option.some.inj (heq.symm.trans hstep₁))
  have hcontent : m₁.content = m.content :=
    (congrArg (fun r => r.1.content) hmodel).symm.trans (m.step_content room hop)
  rw [record_of_not_write hop]
  exact ⟨m₁, hr₁, by rwa [hcontent]⟩

theorem Recorded.Sound.write (hs : c.Sound V) {buf : Option (List UInt8)}
    (hallowed : c.sys.Allowed V (.write h buf)) {x : ℤ} {out : List UInt8}
    (heq : c.sys.step (.write h buf) = some (s', x, out)) :
    Recorded.Sound V ⟨s', c.record (.write h buf, x, out)⟩ := by
  obtain ⟨m, hr, hw⟩ := hs
  obtain ⟨hh, hbuf⟩ := hallowed
  cases buf with
  | none =>
      rw [FileSys.step_write (show tmpfsWrite c.sys.st h none = some (c.sys.st, einval) from rfl)] at heq
      obtain ⟨rfl, -⟩ := Prod.mk.inj (Option.some.inj heq)
      exact ⟨m, hr, hw⟩
  | some bytes =>
      have hfails : ∀ {st'} {r : ℤ}, tmpfsWrite c.sys.st h (some bytes) = some (st', r) → r < 0 →
          Represents V c.sys.opened st' m →
          Recorded.Sound V ⟨s', c.record (.write h (some bytes), x, out)⟩ := by
        intro st' r hwrite hneg hr'
        rw [FileSys.step_write hwrite] at heq
        obtain ⟨rfl, hx⟩ := Prod.mk.inj (Option.some.inj heq)
        obtain ⟨rfl, rfl⟩ := Prod.mk.inj hx
        have hrecord : c.record (.write h (some bytes), r, []) = c.writes := if_neg (by omega)
        rw [hrecord]
        exact ⟨m, hr', hw⟩
      rcases hr.handleHolds hh with ⟨-, hbad⟩ | ⟨v, pos, -, h0, hv, rfl, rfl, hpos, hgood⟩
      · have hwrite : tmpfsWrite c.sys.st h (some bytes) = some (c.sys.st, einval) := by
          simp only [tmpfsWrite, if_pos hbad]
        exact hfails hwrite (by decide) hr
      have hlen := hbuf bytes rfl
      by_cases hlen0 : bytes.length = 0
      · have hwrite : tmpfsWrite c.sys.st h (some bytes) = some (c.sys.st, 0) := by
          simp only [tmpfsWrite, if_neg hgood, if_pos hlen0]
        rw [FileSys.step_write hwrite] at heq
        obtain ⟨rfl, hx⟩ := Prod.mk.inj (Option.some.inj heq)
        obtain ⟨rfl, rfl⟩ := Prod.mk.inj hx
        have hrecord : c.record (.write h (some bytes), 0, []) =
            c.writes.put (c.sys.st.files h).vnode (c.sys.st.files h).fPos bytes := if_pos (by omega)
        rw [hrecord]
        refine ⟨m, hr, fun u hu j b hput => ?_⟩
        rcases Writes.put_some hput with ⟨-, -, hb⟩ | ⟨hold, -⟩
        · rw [List.length_eq_zero_iff.1 hlen0, List.getElem?_nil] at hb
          cases hb
        · exact hw u hu j b hold
      have hend : (c.sys.st.files h).fPos + bytes.length ≤ 2 ^ 63 := by
        by_contra hno
        have hnone := hr.write_diverges hgood hv hpos hlen (not_le.1 hno)
        simp only [FileSys.step, hnone] at heq
        cases heq
      rcases hr.write_cases hgood hv hlen0 hlen hend with
        ⟨st', hwrite, hr', -⟩ | ⟨st₁, hroom, hwrite, -⟩
      · exact hfails hwrite (by decide) hr'
      · rw [FileSys.step_write hwrite] at heq
        obtain ⟨rfl, hx⟩ := Prod.mk.inj (Option.some.inj heq)
        obtain ⟨rfl, rfl⟩ := Prod.mk.inj hx
        have hrecord : c.record (.write h (some bytes), bytes.length, []) =
            c.writes.put (c.sys.st.files h).vnode (c.sys.st.files h).fPos bytes := if_pos rfl
        rw [hrecord]
        refine ⟨_, hroom.afterWrite h0 hv rfl, fun u hu j b hput => ?_⟩
        change (Function.update m.content _ _ u)[j]? = some b
        rcases Writes.put_some hput with ⟨rfl, hj, hb⟩ | ⟨hold, hout⟩
        · rw [Function.update_self]
          exact stored_new st₁ _ hj hb
        · by_cases hu' : u = (c.sys.st.files h).vnode
          · rw [hu', Function.update_self]
            refine (hroom.represents.file _ hv).stored_old ?_ fun hin => hout ⟨hu', hin⟩
            exact hu' ▸ hw u hu j b hold
          · rw [Function.update_of_ne hu']
            exact hw u hu j b hold

theorem Recorded.Sound.read (hs : c.Sound V) {buf : Bool} (hallowed : c.sys.Allowed V (.read h buf len))
    {x : ℤ} {out : List UInt8} (heq : c.sys.step (.read h buf len) = some (s', x, out)) :
    Recorded.Sound V ⟨s', c.writes⟩ := by
  obtain ⟨m, hr, hw⟩ := hs
  obtain ⟨hh, hlen⟩ := hallowed
  have hstay : c.sys.st.badFile h ∨ buf = false → Recorded.Sound V ⟨s', c.writes⟩ := by
    intro hbad
    have hread : tmpfsRead c.sys.st h buf len = (c.sys.st, einval, []) := if_pos hbad
    rw [FileSys.step_read hread] at heq
    obtain ⟨rfl, -⟩ := Prod.mk.inj (Option.some.inj heq)
    exact ⟨m, hr, hw⟩
  rcases hr.handleHolds hh with ⟨-, hbad⟩ | ⟨v, pos, -, h0, hv, rfl, rfl, hpos, hgood⟩
  · exact hstay (Or.inl hbad)
  cases buf with
  | false => exact hstay (Or.inr rfl)
  | true =>
      obtain ⟨k, y, bytes, hread, hk⟩ := hr.read_moves hgood hv hpos hlen
      rw [FileSys.step_read hread] at heq
      obtain ⟨rfl, -⟩ := Prod.mk.inj (Option.some.inj heq)
      have hset : HandleHolds V (c.sys.st.setFile h fun e => { e with fPos := k }) h
          (some ((c.sys.st.files h).vnode, k)) := .setFile hv rfl rfl hk
      exact ⟨_, hr.setHandle h0 (fun _ hk => Or.inr hk) hset, hw⟩

/-- Every step keeps the files well formed and what they hold. -/
theorem Recorded.Sound.step (hs : c.Sound V) (hstep : c.sys.AllowedStep V i s') :
    Recorded.Sound V ⟨s', c.record i⟩ := by
  obtain ⟨op, x, out⟩ := i
  obtain ⟨hallowed, heq⟩ := hstep
  cases op with
  | «open» h v => exact hs.valid hallowed (fun _ _ => FileOp.noConfusion) heq
  | close h => exact hs.valid hallowed (fun _ _ => FileOp.noConfusion) heq
  | lseek h offset whence => exact hs.valid hallowed (fun _ _ => FileOp.noConfusion) heq
  | write h buf => exact hs.write hallowed heq
  | read h buf len => exact hs.read hallowed heq

end Steps

theorem FreshFiles.sound (hf : FreshFiles st V) : Recorded.Sound V ⟨⟨st, []⟩, fun _ _ => none⟩ :=
  ⟨_, hf.represents, fun _ _ _ _ hb => absurd hb (Option.some_ne_none _).symm⟩

theorem Represents.allowed_run (hf : FreshFiles st V) {tr : List (FileOp × ℤ × List UInt8)}
    (hrun : Runs.Trace (FileSys.AllowedStep V) ⟨st, []⟩ tr s) : ∃ m, Represents V s.opened s.st m := by
  have hsound : ∃ w, Recorded.Sound V ⟨s, w⟩ := by
    induction hrun with
    | nil => exact ⟨_, hf.sound⟩
    | snoc _ hstep ih =>
        obtain ⟨w, hs⟩ := ih
        exact ⟨_, hs.step hstep⟩
  obtain ⟨w, m, hr, -⟩ := hsound
  exact ⟨m, hr⟩

structure Written (st st' : State) (h : ℕ) (bytes : List UInt8) : Prop where
  position : (st'.files h).fPos = (st.files h).fPos + bytes.length
  size : (st'.internal (st.files h).vnode).size =
    max (st.internal (st.files h).vnode).size ((st.files h).fPos + bytes.length)
  room : (st.files h).fPos + bytes.length ≤ (st'.internal (st.files h).vnode).capacity
  bytes : ByteMem.read st'.mem ((st'.internal (st.files h).vnode).data + (st.files h).fPos)
    bytes.length = bytes

structure Untouched (st st' : State) (h : ℕ) : Prop where
  handle : st'.files h = st.files h
  node : st'.internal (st.files h).vnode = st.internal (st.files h).vnode
  content : ByteMem.read st'.mem (st.internal (st.files h).vnode).data
      (st.internal (st.files h).vnode).size =
    ByteMem.read st.mem (st.internal (st.files h).vnode).data (st.internal (st.files h).vnode).size

/-- A write returns: it has written its bytes, or there is no memory and nothing has changed. -/
def WriteLaw (st : State) (h : ℕ) (bytes : List UInt8) : Prop :=
  ∃ st' x, tmpfsWrite st h (some bytes) = some (st', x) ∧
    (x = bytes.length ∧ Written st st' h bytes ∨ x = enomem ∧ Untouched st st' h)

theorem HasRoom.written {st₁ : State}
    (hroom : HasRoom V opened m (st.files h).vnode ((st.files h).fPos + bytes.length) st st₁) :
    Written st (st₁.afterWrite h (st.files h).vnode (st.files h).fPos bytes) h bytes := by
  have hnode : (st₁.afterWrite h (st.files h).vnode (st.files h).fPos bytes).internal
      (st.files h).vnode = _ :=
    st₁.internal_storeData_self (st.files h).vnode (st.files h).fPos bytes
  refine ⟨?_, ?_, ?_, ?_⟩
  · simp only [State.afterWrite, State.setFile, Function.update_self]
  · rw [hnode, hroom.size]
  · rw [hnode]
    exact hroom.room
  · rw [hnode]
    exact ByteMem.read_write_same _ _ _

theorem Represents.writeLaw_iff (hr : Represents V opened st m) (hgood : ¬ st.badFile h)
    (hv : (st.files h).vnode ∈ V) (hpos : (st.files h).fPos < 2 ^ 63) (hlen0 : bytes.length ≠ 0)
    (hlen : bytes.length < 2 ^ 32) :
    WriteLaw st h bytes ↔ (st.files h).fPos + bytes.length ≤ 2 ^ 63 := by
  constructor
  · rintro ⟨st', x, heq, -⟩
    by_contra hno
    rw [hr.write_diverges hgood hv hpos hlen (not_le.1 hno)] at heq
    cases heq
  · intro hend
    rcases hr.write_cases hgood hv hlen0 hlen hend with
      ⟨st', hwrite, -, hmem, hnodes, hfiles, hvnodes, -⟩ | ⟨st₁, hroom, hwrite, -⟩
    · refine ⟨st', enomem, hwrite, Or.inr ⟨rfl, ?_, ?_, ?_⟩⟩
      · rw [hfiles]
      · rw [State.internal, State.internal, hvnodes, hnodes]
      · rw [hmem]
    · exact ⟨_, _, hwrite, Or.inl ⟨rfl, hroom.written⟩⟩

/-- In every run, with holes or without, a write of some bytes to an open file returns exactly when its
end is at most `2 ^ 63`. -/
theorem write_returns_iff (hf : FreshFiles st V) {tr : List (FileOp × ℤ × List UInt8)}
    (hrun : Runs.Trace (FileSys.AllowedStep V) ⟨st, []⟩ tr s) (hh : h ∈ s.opened)
    (hgood : ¬ s.st.badFile h) (hbytes : bytes ≠ []) (hlen : bytes.length < 2 ^ 32) :
    WriteLaw s.st h bytes ↔ (s.st.files h).fPos + bytes.length ≤ 2 ^ 63 := by
  obtain ⟨m, hr⟩ := Represents.allowed_run hf hrun
  rcases hr.handleHolds (Or.inr hh) with ⟨-, hbad⟩ | ⟨v, pos, -, -, hv, rfl, rfl, hpos, -⟩
  · exact absurd hbad hgood
  · exact hr.writeLaw_iff hgood hv hpos (fun h0 => hbytes (List.length_eq_zero_iff.1 h0)) hlen

def oneOpen : State := (tmpfsOpen oneFile 4096 16).1

theorem oneOpen_run :
    Runs.Trace (FileSys.AllowedStep {4096}) ⟨oneFile, []⟩ [(.open 16 4096, 0, [])] ⟨oneOpen, [16]⟩ := by
  have hrun := Runs.Trace.nil (p := FileSys.AllowedStep {4096}) (s := ⟨oneFile, []⟩)
  exact hrun.snoc ⟨Or.inr rfl, rfl⟩

theorem write_returns_one :
    WriteLaw oneOpen 16 [1] ↔ (oneOpen.files 16).fPos + [(1 : UInt8)].length ≤ 2 ^ 63 :=
  write_returns_iff oneFile_fresh oneOpen_run (List.mem_singleton.2 rfl) (by decide) (by decide)
    (by decide)

def oneFar : State := (tmpfsLseek64 oneOpen 16 (2 ^ 63 - 1) seekSet).1

theorem oneFar_run : Runs.Trace (FileSys.AllowedStep {4096}) ⟨oneFile, []⟩
    [(.open 16 4096, 0, []), (.lseek 16 (2 ^ 63 - 1) seekSet, 2 ^ 63 - 1, [])] ⟨oneFar, [16]⟩ := by
  refine oneOpen_run.snoc ⟨⟨Or.inr (List.mem_singleton.2 rfl), by norm_num, by norm_num⟩, ?_⟩
  have hcode : (tmpfsLseek64 oneOpen 16 (2 ^ 63 - 1) seekSet).2 = 2 ^ 63 - 1 := by decide
  exact FileSys.step_lseek (Prod.ext rfl hcode)

/-- A write of two bytes there does not return. -/
theorem write_never_returns :
    Runs.Trace (FileSys.AllowedStep {4096}) ⟨oneFile, []⟩
        [(.open 16 4096, 0, []), (.lseek 16 (2 ^ 63 - 1) seekSet, 2 ^ 63 - 1, [])] ⟨oneFar, [16]⟩ ∧
      FreshFiles oneFile {4096} ∧ tmpfsWrite oneFar 16 (some [0, 0]) = none ∧
      ¬ WriteLaw oneFar 16 [0, 0] := by
  have hnone : tmpfsWrite oneFar 16 (some [0, 0]) = none :=
    Option.isNone_iff_eq_none.1 (by decide)
  refine ⟨oneFar_run, oneFile_fresh, hnone, ?_⟩
  rintro ⟨st', x, heq, -⟩
  rw [hnone] at heq
  cases heq

/-- A read that has something to deliver touches only bytes that have been written, and its end is a
number of 64 bits. -/
def Recorded.ReadsWritten (c : Recorded) : FileOp → Prop
  | .read h _ len =>
      let v := (c.sys.st.files h).vnode
      let pos := (c.sys.st.files h).fPos
      let n := min len ((c.sys.st.internal v).size - pos)
      ¬ c.sys.st.badFile h → 0 < n →
        pos + len < 2 ^ 64 ∧ ∀ j, pos ≤ j → j < pos + n → c.writes v j ≠ none
  | _ => True

def Recorded.Step (V : Set ℕ) (c : Recorded) (i : FileOp × ℤ × List UInt8) (c' : Recorded) : Prop :=
  c.sys.AllowedStep V i c'.sys ∧ c'.writes = c.record i ∧ c.ReadsWritten i.1

/-- The bytes that a read of `len` bytes delivers by the record, with `0` for a byte never written. -/
def Recorded.expected (c : Recorded) (h len : ℕ) : List UInt8 :=
  let v := (c.sys.st.files h).vnode
  let pos := (c.sys.st.files h).fPos
  (List.range (min len ((c.sys.st.internal v).size - pos))).map fun k =>
    (c.writes v (pos + k)).getD 0

def State.withMem (st : State) (mem : ByteMem) : State := { st with mem := mem }

def Recorded.withMem (c : Recorded) (mem : ByteMem) : Recorded :=
  ⟨⟨c.sys.st.withMem mem, c.sys.opened⟩, c.writes⟩

section Twins

variable {c c' : Recorded} {mem : ByteMem}

theorem Recorded.Sound.reads (hs : c.Sound V) (hh : h = 0 ∨ h ∈ c.sys.opened)
    (hgood : ¬ c.sys.st.badFile h) (hcond : c.ReadsWritten (.read h true len)) :
    let v := (c.sys.st.files h).vnode
    let n := min len ((c.sys.st.internal v).size - (c.sys.st.files h).fPos)
    tmpfsRead c.sys.st h true len =
      (c.sys.st.setFile h fun e => { e with fPos := e.fPos + n }, (n : ℤ), c.expected h len) := by
  obtain ⟨m, hr, hw⟩ := hs
  rcases hr.handleHolds hh with ⟨-, hbad⟩ | ⟨v, pos, -, h0, hv, rfl, rfl, hpos, -⟩
  · exact absurd hbad hgood
  have hf := hr.file _ hv
  have hsmall := hf.size_le.trans hf.capacity_le
  have hconst : maxAllocSize < 2 ^ 31 := by decide
  have hread := tmpfsRead_spec hgood hf.file rfl fun hn => ⟨(hcond hgood hn).1, by omega⟩
  dsimp only
  rw [hread]
  have hbytes : ByteMem.read c.sys.st.mem
      ((c.sys.st.internal (c.sys.st.files h).vnode).data + (c.sys.st.files h).fPos)
      (min len ((c.sys.st.internal (c.sys.st.files h).vnode).size - (c.sys.st.files h).fPos)) =
        c.expected h len := by
    apply List.map_congr_left
    intro k hk
    have hlt := List.mem_range.1 hk
    have hwritten := (hcond hgood (by omega)).2 ((c.sys.st.files h).fPos + k) (by omega) (by omega)
    obtain ⟨b, hb⟩ := Option.ne_none_iff_exists'.1 hwritten
    have hbyte := (hf.byte (hw _ hv _ b hb)).2
    rw [hb, Option.getD_some, ← hbyte, Nat.add_assoc]
  rw [hbytes]

theorem tmpfsGrow_withMem {n required : ℕ} {ok : Bool}
    (heq : tmpfsGrow st n required = some (st', ok)) (mem : ByteMem) :
    ∃ mem', tmpfsGrow (st.withMem mem) n required = some (st'.withMem mem', ok) := by
  have hnodes : (st.withMem mem).nodes = st.nodes := rfl
  have halloc : ∀ c, (st.withMem mem).alloc c = ((st.alloc c).1.withMem mem, (st.alloc c).2) :=
    fun c => rfl
  simp only [tmpfsGrow, Option.bind_eq_bind] at heq
  obtain ⟨c, hc, heq⟩ := Option.bind_eq_some_iff.1 heq
  simp only [tmpfsGrow, hnodes, halloc, hc, Option.bind_eq_bind, Option.bind_some]
  by_cases hlt : (st.nodes n).capacity < c
  swap
  · rw [if_neg hlt] at heq ⊢
    obtain ⟨rfl, rfl⟩ := Prod.mk.inj (Option.some.inj heq)
    exact ⟨mem, rfl⟩
  rw [if_pos hlt] at heq ⊢
  by_cases hp : (st.alloc c).2 = 0
  · rw [if_pos hp] at heq ⊢
    obtain ⟨rfl, rfl⟩ := Prod.mk.inj (Option.some.inj heq)
    exact ⟨mem, rfl⟩
  rw [if_neg hp] at heq ⊢
  obtain ⟨rfl, rfl⟩ := Prod.mk.inj (Option.some.inj heq)
  by_cases hdata : (st.nodes n).data = 0
  · simp only [if_pos hdata]
    exact ⟨mem, rfl⟩
  · simp only [if_neg hdata]
    exact ⟨_, rfl⟩

theorem tmpfsStore_withMem (st : State) (mem : ByteMem) (h n : ℕ) (bytes : List UInt8) :
    ∃ mem', tmpfsStore (st.withMem mem) h n bytes = (tmpfsStore st h n bytes).withMem mem' := by
  by_cases hlt : (st.nodes n).size < ((st.files h).fPos + bytes.length) % 2 ^ 64
  · have hnew : tmpfsStore (st.withMem mem) h n bytes = _ := if_pos hlt
    have hold : tmpfsStore st h n bytes = _ := if_pos hlt
    rw [hnew, hold]
    exact ⟨_, rfl⟩
  · have hnew : tmpfsStore (st.withMem mem) h n bytes = _ := if_neg hlt
    have hold : tmpfsStore st h n bytes = _ := if_neg hlt
    rw [hnew, hold]
    exact ⟨_, rfl⟩

theorem tmpfsWrite_withMem {buf : Option (List UInt8)} {x : ℤ}
    (heq : tmpfsWrite st h buf = some (st', x)) (mem : ByteMem) :
    ∃ mem', tmpfsWrite (st.withMem mem) h buf = some (st'.withMem mem', x) := by
  cases buf with
  | none =>
      obtain ⟨rfl, rfl⟩ := Prod.mk.inj (Option.some.inj heq)
      exact ⟨mem, rfl⟩
  | some bytes =>
      have hbad : (st.withMem mem).badFile h ↔ st.badFile h := Iff.rfl
      have hfiles : (st.withMem mem).files = st.files := rfl
      have hvnodes : (st.withMem mem).vnodes = st.vnodes := rfl
      have hnodes : (st.withMem mem).nodes = st.nodes := rfl
      simp only [tmpfsWrite, hbad, hfiles, hvnodes, hnodes, Option.bind_eq_bind] at heq ⊢
      split_ifs at heq ⊢
      · obtain ⟨rfl, rfl⟩ := Prod.mk.inj (Option.some.inj heq)
        exact ⟨mem, rfl⟩
      · obtain ⟨rfl, rfl⟩ := Prod.mk.inj (Option.some.inj heq)
        exact ⟨mem, rfl⟩
      · obtain ⟨rfl, rfl⟩ := Prod.mk.inj (Option.some.inj heq)
        exact ⟨mem, rfl⟩
      · obtain ⟨⟨st₁, ok⟩, hgrow, heq⟩ := Option.bind_eq_some_iff.1 heq
        obtain ⟨mem₁, hgrow'⟩ := tmpfsGrow_withMem hgrow mem
        rw [hgrow', Option.bind_some]
        cases ok with
        | false =>
            obtain ⟨rfl, rfl⟩ := Prod.mk.inj (Option.some.inj heq)
            exact ⟨mem₁, rfl⟩
        | true =>
            obtain ⟨rfl, rfl⟩ := Prod.mk.inj (Option.some.inj heq)
            obtain ⟨mem₂, hstore⟩ := tmpfsStore_withMem st₁ mem₁ h
              (st.vnodes (st.files h).vnode).internal bytes
            refine ⟨mem₂, ?_⟩
            rw [if_pos rfl, hstore]
      · obtain ⟨rfl, rfl⟩ := Prod.mk.inj (Option.some.inj heq)
        obtain ⟨mem₂, hstore⟩ := tmpfsStore_withMem st mem h
          (st.vnodes (st.files h).vnode).internal bytes
        exact ⟨mem₂, by rw [hstore]⟩

theorem tmpfsOpen_withMem (st : State) (mem : ByteMem) (v h : ℕ) :
    tmpfsOpen (st.withMem mem) v h = ((tmpfsOpen st v h).1.withMem mem, (tmpfsOpen st v h).2) := by
  simp only [tmpfsOpen]
  split_ifs <;> rfl

theorem tmpfsClose_withMem (st : State) (mem : ByteMem) (h : ℕ) :
    tmpfsClose (st.withMem mem) h = ((tmpfsClose st h).1.withMem mem, (tmpfsClose st h).2) := by
  simp only [tmpfsClose]
  split_ifs <;> rfl

theorem tmpfsLseek64_withMem (st : State) (mem : ByteMem) (h : ℕ) (offset whence : ℤ) :
    tmpfsLseek64 (st.withMem mem) h offset whence =
      ((tmpfsLseek64 st h offset whence).1.withMem mem, (tmpfsLseek64 st h offset whence).2) := by
  have hbad : (st.withMem mem).badFile h ↔ st.badFile h := Iff.rfl
  have hfiles : (st.withMem mem).files = st.files := rfl
  have hnode : (st.withMem mem).internal = st.internal := rfl
  simp only [tmpfsLseek64, hbad, hfiles, hnode]
  split_ifs
  any_goals rfl
  all_goals
    dsimp only
    split_ifs <;> rfl

/-- A step gives the same over another memory. -/
theorem Recorded.Sound.step_withMem (hs : c.Sound V) (hs' : (c.withMem mem).Sound V)
    (hallowed : c.sys.Allowed V i.1) (hcond : c.ReadsWritten i.1)
    (heq : c.sys.step i.1 = some (s', i.2)) :
    ∃ mem', (c.withMem mem).sys.step i.1 = some (⟨s'.st.withMem mem', s'.opened⟩, i.2) := by
  obtain ⟨op, x, out⟩ := i
  cases op with
  | «open» h v =>
      rcases hopen : tmpfsOpen c.sys.st v h with ⟨st₁, r⟩
      simp only [FileSys.step, hopen, Option.some.injEq, Prod.mk.injEq] at heq
      obtain ⟨rfl, rfl, rfl⟩ := heq
      refine ⟨mem, ?_⟩
      simp only [Recorded.withMem, FileSys.step, tmpfsOpen_withMem, hopen]
  | close h =>
      rcases hclose : tmpfsClose c.sys.st h with ⟨st₁, r⟩
      simp only [FileSys.step, hclose, Option.some.injEq, Prod.mk.injEq] at heq
      obtain ⟨rfl, rfl, rfl⟩ := heq
      refine ⟨mem, ?_⟩
      simp only [Recorded.withMem, FileSys.step, tmpfsClose_withMem, hclose]
  | lseek h offset whence =>
      rcases hseek : tmpfsLseek64 c.sys.st h offset whence with ⟨st₁, r⟩
      simp only [FileSys.step, hseek, Option.some.injEq, Prod.mk.injEq] at heq
      obtain ⟨rfl, rfl, rfl⟩ := heq
      refine ⟨mem, ?_⟩
      simp only [Recorded.withMem, FileSys.step, tmpfsLseek64_withMem, hseek]
  | write h buf =>
      cases hwrite : tmpfsWrite c.sys.st h buf with
      | none =>
          simp only [FileSys.step, hwrite] at heq
          cases heq
      | some r =>
          obtain ⟨st₁, y⟩ := r
          rw [FileSys.step_write hwrite] at heq
          obtain ⟨rfl, hx⟩ := Prod.mk.inj (Option.some.inj heq)
          obtain ⟨mem', hwrite'⟩ := tmpfsWrite_withMem hwrite mem
          refine ⟨mem', ?_⟩
          rw [← hx]
          exact FileSys.step_write hwrite'
  | read h buf len =>
      refine ⟨mem, ?_⟩
      by_cases hbad : c.sys.st.badFile h ∨ buf = false
      · have hread : tmpfsRead c.sys.st h buf len = (c.sys.st, einval, []) := if_pos hbad
        rw [FileSys.step_read hread] at heq
        obtain ⟨rfl, hx⟩ := Prod.mk.inj (Option.some.inj heq)
        rw [← hx]
        exact FileSys.step_read (if_pos hbad)
      · push Not at hbad
        obtain ⟨hgood, hbuf⟩ := hbad
        obtain rfl : buf = true := by simpa using hbuf
        have hread := hs.reads hallowed.1 hgood hcond
        have hread' := hs'.reads (h := h) hallowed.1 hgood hcond
        rw [FileSys.step_read hread] at heq
        obtain ⟨rfl, hx⟩ := Prod.mk.inj (Option.some.inj heq)
        rw [← hx]
        exact FileSys.step_read hread'

theorem Recorded.allowed_withMem (hallowed : c.sys.Allowed V op) (mem : ByteMem) :
    (c.withMem mem).sys.Allowed V op := by
  cases op <;> exact hallowed

theorem Recorded.readsWritten_withMem (hcond : c.ReadsWritten op) (mem : ByteMem) :
    (c.withMem mem).ReadsWritten op := by
  cases op <;> exact hcond

theorem Recorded.record_withMem (c : Recorded) (mem : ByteMem) (i : FileOp × ℤ × List UInt8) :
    (c.withMem mem).record i = c.record i := by
  obtain ⟨op, x⟩ := i
  cases op with
  | write h buf => cases buf <;> rfl
  | _ => rfl

def Twins (V : Set ℕ) (c d : Recorded) : Prop := c.Sound V ∧ d.Sound V ∧ ∃ mem, d = c.withMem mem

theorem twins_simulate : Runs.Simulates (Recorded.Step V) (Recorded.Step V) (Twins V) := by
  rintro c i c' d ⟨hs, hs', mem, rfl⟩ ⟨⟨hallowed, heq⟩, hwrites, hcond⟩
  obtain ⟨mem', heq'⟩ := hs.step_withMem hs' hallowed hcond heq
  have hallowed' := Recorded.allowed_withMem hallowed mem
  have hnext := hs.step ⟨hallowed, heq⟩
  have hnext' := hs'.step ⟨hallowed', heq'⟩
  rw [Recorded.record_withMem] at hnext'
  rw [← hwrites] at hnext hnext'
  refine ⟨c'.withMem mem', ⟨hnext, hnext', mem', rfl⟩, ⟨hallowed', heq'⟩, ?_,
    Recorded.readsWritten_withMem hcond mem⟩
  rw [Recorded.record_withMem]
  exact hwrites

theorem FreshFiles.withMem (hf : FreshFiles st V) (mem : ByteMem) : FreshFiles (st.withMem mem) V :=
  ⟨hf.heap, hf.vnode, hf.node, hf.file, hf.data, hf.node_inj, hf.data_inj⟩

/-- A run in which every read touches only written bytes is also a run over any other memory, with the
same results; and such a read delivers what the record says. -/
theorem holes_do_not_leak (hf : FreshFiles st V) {tr : List (FileOp × ℤ × List UInt8)}
    (hrun : Runs.Trace (Recorded.Step V) ⟨⟨st, []⟩, fun _ _ => none⟩ tr c) :
    (∀ mem, ∃ d, Runs.Trace (Recorded.Step V) ⟨⟨st.withMem mem, []⟩, fun _ _ => none⟩ tr d) ∧
      ∀ h len, h ∈ c.sys.opened → ¬ c.sys.st.badFile h → c.ReadsWritten (.read h true len) →
        (tmpfsRead c.sys.st h true len).2.2 = c.expected h len := by
  have hinit : ∀ mem, Twins V ⟨⟨st, []⟩, fun _ _ => none⟩ ⟨⟨st.withMem mem, []⟩, fun _ _ => none⟩ :=
    fun mem => ⟨hf.sound, (hf.withMem mem).sound, mem, rfl⟩
  refine ⟨fun mem => ?_, fun h len hh hgood hcond => ?_⟩
  · obtain ⟨d, -, htrace⟩ := twins_simulate.run (hinit mem) hrun
    exact ⟨d, htrace⟩
  · obtain ⟨d, ⟨hs, -⟩, -⟩ := twins_simulate.run (hinit st.mem) hrun
    rw [hs.reads (Or.inr hh) hgood hcond]

end Twins

def oneBack : Recorded :=
  ⟨⟨(tmpfsLseek64 (tmpfsStore oneOpen 16 8192 [1]) 16 0 seekSet).1, [16]⟩,
    Writes.put (fun _ _ => none) 4096 0 [1]⟩

theorem oneBack_run :
    Runs.Trace (Recorded.Step {4096}) ⟨⟨oneFile, []⟩, fun _ _ => none⟩
      [(.open 16 4096, 0, []), (.write 16 (some [1]), 1, []), (.lseek 16 0 seekSet, 0, [])] oneBack := by
  have hnil := Runs.Trace.nil (p := Recorded.Step {4096}) (s := ⟨⟨oneFile, []⟩, fun _ _ => none⟩)
  have hopen := hnil.snoc (show Recorded.Step {4096} _ (.open 16 4096, 0, []) ⟨⟨_, _⟩, _⟩ from
    ⟨⟨Or.inr rfl, rfl⟩, rfl, trivial⟩)
  have hwrite := hopen.snoc (show Recorded.Step {4096} _ (.write 16 (some [1]), 1, []) ⟨⟨_, _⟩, _⟩ from
    ⟨⟨⟨Or.inr (List.mem_singleton.2 rfl), by simp⟩, rfl⟩, rfl, trivial⟩)
  exact hwrite.snoc (show Recorded.Step {4096} _ (.lseek 16 0 seekSet, 0, []) ⟨⟨_, _⟩, _⟩ from
    ⟨⟨⟨Or.inr (List.mem_singleton.2 rfl), by norm_num, by norm_num⟩, rfl⟩, rfl, trivial⟩)

theorem oneBack_read : oneBack.ReadsWritten (.read 16 true 1) := by
  intro _ _
  have hpos : (oneBack.sys.st.files 16).fPos = 0 := by decide
  rw [hpos]
  refine ⟨by decide, fun j _ hj => ?_⟩
  have hzero : j = 0 := by omega
  rw [hzero]
  decide

/-- A byte is written and read back, over another memory too. -/
theorem holes_do_not_leak_one :
    ∃ d, Runs.Trace (Recorded.Step {4096}) ⟨⟨oneFile.withMem fun _ => 7, []⟩, fun _ _ => none⟩
      [(.open 16 4096, 0, []), (.write 16 (some [1]), 1, []), (.lseek 16 0 seekSet, 0, []),
        (.read 16 true 1, 1, [1])] d := by
  have hbyte : (tmpfsRead oneBack.sys.st 16 true 1).2 = (1, [1]) := by decide
  have hstep : Recorded.Step {4096} oneBack (.read 16 true 1, 1, [1])
      ⟨⟨(tmpfsRead oneBack.sys.st 16 true 1).1, [16]⟩, oneBack.writes⟩ :=
    ⟨⟨⟨Or.inr (List.mem_singleton.2 rfl), by norm_num⟩, FileSys.step_read (Prod.ext rfl hbyte)⟩, rfl,
      oneBack_read⟩
  exact (holes_do_not_leak oneFile_fresh (oneBack_run.snoc hstep)).1 _

/-- The file of `oneFile` over a memory with the byte `b` everywhere, after a hole of ten bytes and one
byte behind it have been made. -/
def oneHole (b : UInt8) : State :=
  let far := (tmpfsLseek64 (tmpfsOpen (oneFile.withMem fun _ => b) 4096 16).1 16 10 seekSet).1
  (tmpfsLseek64 (tmpfsStore far 16 8192 [1]) 16 0 seekSet).1

theorem oneHole_run (b : UInt8) :
    Runs.Trace (FileSys.AllowedStep {4096}) ⟨oneFile.withMem fun _ => b, []⟩
      [(.open 16 4096, 0, []), (.lseek 16 10 seekSet, 10, []), (.write 16 (some [1]), 1, []),
        (.lseek 16 0 seekSet, 0, [])] ⟨oneHole b, [16]⟩ := by
  have hnil := Runs.Trace.nil (p := FileSys.AllowedStep {4096}) (s := ⟨oneFile.withMem fun _ => b, []⟩)
  have hopen := hnil.snoc (show FileSys.AllowedStep {4096} _ (.open 16 4096, 0, []) ⟨_, _⟩ from
    ⟨Or.inr rfl, rfl⟩)
  have hseek := hopen.snoc (show FileSys.AllowedStep {4096} _ (.lseek 16 10 seekSet, 10, []) ⟨_, _⟩ from
    ⟨⟨Or.inr (List.mem_singleton.2 rfl), by norm_num, by norm_num⟩, rfl⟩)
  have hwrite := hseek.snoc (show FileSys.AllowedStep {4096} _ (.write 16 (some [1]), 1, []) ⟨_, _⟩ from
    ⟨⟨Or.inr (List.mem_singleton.2 rfl), by simp⟩, rfl⟩)
  exact hwrite.snoc (show FileSys.AllowedStep {4096} _ (.lseek 16 0 seekSet, 0, []) ⟨_, _⟩ from
    ⟨⟨Or.inr (List.mem_singleton.2 rfl), by norm_num, by norm_num⟩, rfl⟩)

theorem oneHole_read {b : UInt8} (hbyte : (tmpfsRead (oneHole b) 16 true 1).2 = (1, [b])) :
    Runs.Trace (FileSys.AllowedStep {4096}) ⟨oneFile.withMem fun _ => b, []⟩
      [(.open 16 4096, 0, []), (.lseek 16 10 seekSet, 10, []), (.write 16 (some [1]), 1, []),
        (.lseek 16 0 seekSet, 0, []), (.read 16 true 1, 1, [b])]
      ⟨(tmpfsRead (oneHole b) 16 true 1).1, [16]⟩ :=
  (oneHole_run b).snoc ⟨⟨Or.inr (List.mem_singleton.2 rfl), by norm_num⟩,
    FileSys.step_read (Prod.ext rfl hbyte)⟩

/-- The same operations over two memories: the read delivers a byte that was never written, and it is
the old one. -/
theorem hole_leaks :
    FreshFiles (oneFile.withMem fun _ => 0) {4096} ∧ FreshFiles (oneFile.withMem fun _ => 7) {4096} ∧
      (∃ s, Runs.Trace (FileSys.AllowedStep {4096}) ⟨oneFile.withMem fun _ => 0, []⟩
        [(.open 16 4096, 0, []), (.lseek 16 10 seekSet, 10, []), (.write 16 (some [1]), 1, []),
          (.lseek 16 0 seekSet, 0, []), (.read 16 true 1, 1, [0])] s) ∧
      ∃ s, Runs.Trace (FileSys.AllowedStep {4096}) ⟨oneFile.withMem fun _ => 7, []⟩
        [(.open 16 4096, 0, []), (.lseek 16 10 seekSet, 10, []), (.write 16 (some [1]), 1, []),
          (.lseek 16 0 seekSet, 0, []), (.read 16 true 1, 1, [7])] s := by
  refine ⟨oneFile_fresh.withMem _, oneFile_fresh.withMem _, ⟨_, oneHole_read ?_⟩, ⟨_, oneHole_read ?_⟩⟩
  · decide
  · decide

end OscKernel.Vfs
