import OscKernel.FileRuns

/-!
# What runs keep

A file stays where it is, and only a write through a handle of it changes its bytes; those of an archive never
change. What a task does leaves the descriptors of the other tasks.
-/

namespace OscKernel.Vfs

variable {s s' s₀ : Sys} {T : Set ℕ} {m m' : FileStore} {t v : ℕ} {fd x : ℤ} {i : Fin threadMaxFd}
  {out : List UInt8} {l : List (SysOp × ℤ × List UInt8)}

/-- The step `j` is a write through a descriptor of `v`. -/
def FileStore.Writes (m : FileStore) (v : ℕ) (j : SysOp × ℤ × List UInt8) : Prop :=
  ∃ t fd buf f, j.1 = .write t fd buf ∧ FileStore.lookup m t fd = some f ∧ f.vnode = v ∧ f.kind = .tmpfs ∧
    j.2.1 = (buf.getD []).length

theorem FileStore.WriteMay.content {f : OpenFile} {bytes : List UInt8} (h : m.WriteMay f bytes x m') :
    m'.content = m.content ∨ f.kind = .tmpfs ∧ x = bytes.length ∧
      ∃ bs', m'.content = Function.update m.content f.vnode (some (f.kind, bs')) := by
  unfold FileStore.WriteMay at h
  cases hkind : f.kind with
  | initramfs =>
      rw [hkind] at h
      exact Or.inl (congrArg _ h.2)
  | tmpfs =>
      rw [hkind] at h
      rcases h with ⟨-, -, rfl⟩ | ⟨hx, bs', -, rfl⟩
      · exact Or.inl rfl
      · exact Or.inr ⟨rfl, hx, bs', rfl⟩

/-- A step keeps the files, and only a write through a descriptor of a file changes its bytes. -/
theorem FileStore.Step.kept {j : SysOp × ℤ × List UInt8} {y : VnodeOps × List UInt8} (h : m.Step j m')
    (hy : m.content v = some y) : ∃ bs', m'.content v = some (y.1, bs') ∧ (bs' ≠ y.2 → m.Writes v j) := by
  have hsame : m'.content v = some y →
      ∃ bs', m'.content v = some (y.1, bs') ∧ (bs' ≠ y.2 → m.Writes v j) := fun h =>
    ⟨y.2, h, fun hne => absurd rfl hne⟩
  obtain ⟨op, x, out⟩ := j
  cases op with
  | «open» t path flags => exact hsame (h.2.1.kept hy)
  | close t fd =>
      obtain ⟨-, rfl⟩ := h
      refine hsame ?_
      cases slot fd <;> exact hy
  | write t fd buf =>
      obtain ⟨-, h⟩ := h
      cases hf : FileStore.lookup m t fd with
      | none =>
          rw [hf] at h
          obtain rfl : m' = m := h
          exact hsame hy
      | some f =>
          rw [hf] at h
          dsimp only at h
          split_ifs at h with hnil
          · obtain ⟨-, rfl⟩ := h
            exact hsame hy
          · rcases h.content with hc | ⟨htmpfs, hx, bs', hc⟩
            · exact hsame (by rw [hc, hy])
            · by_cases hv : f.vnode = v
              · obtain ⟨i, -, -, -, hcontent⟩ := FileStore.lookup_eq_some hf
                rw [hv, hy] at hcontent
                refine ⟨bs', ?_, fun _ => ⟨t, fd, buf, f, rfl, hf, hv, htmpfs, hx⟩⟩
                rw [hc, hv, Function.update_self, Option.some.inj hcontent]
              · refine hsame ?_
                rw [hc, Function.update_of_ne (Ne.symm hv), hy]
  | read t fd buf count port =>
      have hc : m'.content = m.content := by
        simp only [FileStore.Step, FileStore.Allows] at h
        cases hf : FileStore.lookup m t fd with
        | none =>
            rw [hf] at h
            exact congrArg _ h
        | some f =>
            rw [hf] at h
            dsimp only at h
            split_ifs at h
            · exact congrArg _ h.2.2
            · rw [h.2.2]
              rfl
      exact hsame (by rw [hc, hy])
  | lseek t fd offset whence =>
      obtain ⟨-, h⟩ := h
      have hc : m'.content = m.content := by
        cases hf : FileStore.lookup m t fd with
        | none =>
            rw [hf] at h
            exact congrArg _ h
        | some f =>
            rw [hf] at h
            rw [h.2]
            cases FileStore.seekTarget f offset whence <;> rfl
      exact hsame (by rw [hc, hy])
  | mkdir t path => exact hsame (by rw [h.2, hy])
  | mount t target filesystem => exact hsame (by rw [h.2, hy])
  | chdir t path => exact hsame (by rw [h.2, hy])
  | start t => exact hsame (by rw [h.2.1, hy])
  | fork t held => exact hsame (by rw [h.2.1, hy])
  | reap t th => exact hsame (by rw [h.2.1, hy])
  | register name ops => exact hsame (by rw [h.2, hy])
  | mknod t path ops => exact hsame (h.2.1.kept hy)
  | fill t path entries => exact hsame (h.2.1.kept hy)

theorem FileStore.Writes.tmpfs {j : SysOp × ℤ × List UInt8} {y : VnodeOps × List UInt8} (h : m.Writes v j)
    (hy : m.content v = some y) : y.1 = .tmpfs := by
  obtain ⟨t, fd, buf, f, -, hf, rfl, htmpfs, -⟩ := h
  obtain ⟨i, -, -, -, hcontent⟩ := FileStore.lookup_eq_some hf
  rw [hy] at hcontent
  rw [Option.some.inj hcontent]
  exact htmpfs

/-- The call is a write that succeeds, through a handle of the vnode `v`. -/
def Sys.Writes (s : Sys) (v : ℕ) (j : SysOp × ℤ × List UInt8) : Prop :=
  ∃ t fd buf i, j.1 = .write t fd buf ∧ j.2.1 = (buf.getD []).length ∧ slot fd = some i ∧
    (s.tasks t).fdTable i ≠ 0 ∧ (s.st.files ((s.tasks t).fdTable i)).vnode = v

theorem Sys.Shows.writes {j : SysOp × ℤ × List UInt8} (hs : s.Shows T m) (h : m.Writes v j) :
    s.Writes v j := by
  obtain ⟨t, fd, buf, f, hop, hf, rfl, -, hx⟩ := h
  obtain ⟨i, hi, -⟩ := FileStore.lookup_eq_some hf
  have hhas := hs.has hf hi
  exact ⟨t, fd, buf, i, hop, hx, hi, hhas.ne_zero, hhas.vnode⟩

def Sys.WritesIn (s : Sys) (v : ℕ) (l : List (SysOp × ℤ × List UInt8)) : Prop :=
  ∃ l₁ j l₂ s₁, l = l₁ ++ j :: l₂ ∧ Runs.Trace Sys.Does s l₁ s₁ ∧ s₁.Writes v j

def SysOp.task : SysOp → Option ℕ
  | .open t _ _ | .close t _ | .write t _ _ | .read t _ _ _ _ | .lseek t _ _ _ | .mkdir t _ | .mount t _ _
  | .chdir t _ | .start t | .fork t _ | .reap t _ | .mknod t _ _ | .fill t _ _ => some t
  | .register _ _ => none

theorem FileStore.moveTo_handle {f : OpenFile} {k u : ℕ} {j : Fin threadMaxFd} (h : f.descriptor = (t, i))
    (hu : some t ≠ some u) : (m.moveTo f k).handle (u, j) = m.handle (u, j) := by
  rw [FileStore.moveTo, h]
  refine Function.update_of_ne ?_ ..
  exact fun heq => hu (congrArg some (congrArg Prod.fst heq).symm)

/-- A step leaves the descriptors of all tasks but the one that makes the call. -/
theorem FileStore.Step.others {j : SysOp × ℤ × List UInt8} (h : m.Step j m') {u : ℕ} (hu : j.1.task ≠ some u)
    (k : Fin threadMaxFd) : m'.handle (u, k) = m.handle (u, k) := by
  have hlookup : ∀ {t fd f}, FileStore.lookup m t fd = some f → ∃ i, f.descriptor = (t, i) := fun hf => by
    obtain ⟨i, -, hd, -⟩ := FileStore.lookup_eq_some hf
    exact ⟨i, hd⟩
  obtain ⟨op, x, out⟩ := j
  cases op with
  | «open» t path flags =>
      obtain ⟨-, -, -, heq | ⟨i, v, -, -, -, heq⟩⟩ := h
      · rw [heq]
      · rw [heq]
        refine Function.update_of_ne ?_ ..
        exact fun heq' => hu (congrArg some (congrArg Prod.fst heq').symm)
  | close t fd =>
      obtain ⟨-, rfl⟩ := h
      cases slot fd with
      | none => rfl
      | some i =>
          refine Function.update_of_ne ?_ ..
          exact fun heq' => hu (congrArg some (congrArg Prod.fst heq').symm)
  | write t fd buf =>
      obtain ⟨-, h⟩ := h
      cases hf : FileStore.lookup m t fd with
      | none =>
          rw [hf] at h
          obtain rfl : m' = m := h
          rfl
      | some f =>
          obtain ⟨i, hd⟩ := hlookup hf
          rw [hf] at h
          dsimp only at h
          split_ifs at h
          · rw [h.2]
          · unfold FileStore.WriteMay at h
            cases hkind : f.kind with
            | initramfs =>
                rw [hkind] at h
                rw [h.2]
            | tmpfs =>
                rw [hkind] at h
                rcases h with ⟨-, -, rfl⟩ | ⟨-, bs', -, rfl⟩
                · rfl
                · exact FileStore.moveTo_handle hd hu
  | read t fd buf count port =>
      simp only [FileStore.Step, FileStore.Allows] at h
      cases hf : FileStore.lookup m t fd with
      | none =>
          rw [hf] at h
          obtain rfl : m' = m := h
          rfl
      | some f =>
          obtain ⟨i, hd⟩ := hlookup hf
          rw [hf] at h
          dsimp only at h
          split_ifs at h
          · rw [h.2.2]
          · rw [h.2.2]
            exact FileStore.moveTo_handle hd hu
  | lseek t fd offset whence =>
      obtain ⟨-, h⟩ := h
      cases hf : FileStore.lookup m t fd with
      | none =>
          rw [hf] at h
          obtain rfl : m' = m := h
          rfl
      | some f =>
          obtain ⟨i, hd⟩ := hlookup hf
          rw [hf] at h
          rw [h.2]
          cases FileStore.seekTarget f offset whence with
          | none => rfl
          | some k => exact FileStore.moveTo_handle hd hu
  | mkdir t path => rw [h.2]
  | mount t target filesystem => rw [h.2]
  | chdir t path => rw [h.2]
  | start t =>
      obtain ⟨-, -, rfl | ⟨hother, -⟩⟩ := h
      · rfl
      · exact hother u k fun heq => hu (congrArg some heq.symm)
  | fork t held =>
      obtain ⟨-, -, rfl | heq⟩ := h
      · rfl
      · rw [heq]
        exact if_neg fun heq' => hu (congrArg some heq'.symm)
  | reap t th =>
      rw [h.2.2]
      exact if_neg fun heq' => hu (congrArg some heq'.symm)
  | register name ops => rw [h.2]
  | mknod t path ops => rw [h.2.2]
  | fill t path entries => rw [h.2.2]

theorem FileStore.seekTarget_set (f : OpenFile) {pos : ℕ} (hpos : pos < 2 ^ 63) :
    FileStore.seekTarget f pos seekSet = some pos := by
  have hin : 0 ≤ (0 : ℤ) + pos ∧ (0 : ℤ) + pos < 2 ^ 63 := by
    have hlt : (pos : ℤ) < 2 ^ 63 := by exact_mod_cast hpos
    exact ⟨by omega, by omega⟩
  rw [FileStore.seekTarget, if_pos rfl, Option.bind_some, if_pos hin, zero_add, Int.toNat_natCast]

theorem FileStore.Step.read_file {f : OpenFile} {count : ℕ} {port : List UInt8}
    (h : m.Step (.read t fd true count port, x, out) m') (hf : m.lookup t fd = some f) :
    out = (f.bytes.drop f.pos).take count ∧ x = out.length := by
  simp only [FileStore.Step, FileStore.Allows] at h
  rw [hf] at h
  exact ⟨h.1, h.2.1⟩

/-- What a run keeps of a file and of the descriptors of a task that does nothing. -/
theorem Sys.Shows.run_kept {y : VnodeOps × List UInt8} (hs : s.Shows T m) (hy : m.content v = some y)
    (hrun : Runs.Trace Sys.Does s l s') :
    ∃ T' m' bs', s'.Shows T' m' ∧ m'.content v = some (y.1, bs') ∧
      (bs' ≠ y.2 → s.WritesIn v l ∧ y.1 = .tmpfs) ∧
      ∀ u, (∀ j ∈ l, j.1.task ≠ some u) → ∀ i, m'.handle (u, i) = m.handle (u, i) := by
  induction hrun with
  | nil => exact ⟨T, m, y.2, hs, hy, fun hne => absurd rfl hne, fun _ _ _ => rfl⟩
  | @snoc l₁ j s₁ s₂ hrun hdoes ih =>
      obtain ⟨T₁, m₁, bs₁, hs₁, hy₁, hwrote, hhandle₁⟩ := ih
      obtain ⟨T₂, m₂, hs₂, hstep⟩ := hs₁.step hdoes
      obtain ⟨bs₂, hy₂, hwrites⟩ := hstep.kept hy₁
      refine ⟨T₂, m₂, bs₂, hs₂, hy₂, fun hne => ?_, fun u hu i => ?_⟩
      · by_cases hbs : bs₁ = y.2
        · have hj := hwrites fun heq => hne (heq.trans hbs)
          have htmpfs := hj.tmpfs hy₁
          exact ⟨⟨l₁, j, [], s₁, rfl, hrun, hs₁.writes hj⟩, htmpfs⟩
        · obtain ⟨⟨l₀, k, l₂, s₀, rfl, hrun₀, hk⟩, htmpfs⟩ := hwrote hbs
          exact ⟨⟨l₀, k, l₂ ++ [j], s₀, by simp, hrun₀, hk⟩, htmpfs⟩
      · have hj := hstep.others (hu j (by simp)) i
        rw [hj, hhandle₁ u (fun k hk => hu k (List.mem_append_left _ hk)) i]

/-- In every run, a file that is there stays, its bytes change only by a write through a handle of it that
succeeds, and those of an archive never do. -/
theorem files_kept {l₁ l₂ : List (SysOp × ℤ × List UInt8)} (h0 : s₀.Initial)
    (hrun₁ : Runs.Trace Sys.Does s₀ l₁ s) (hrun₂ : Runs.Trace Sys.Does s l₂ s') :
    ∃ T m, s.Shows T m ∧ Runs.Trace FileStore.Step OpenFiles.empty l₁ m ∧ ∀ v y, m.content v = some y →
      ∃ bs', StoredFile s'.st v (y.1, bs') ∧ (bs' ≠ y.2 → s.WritesIn v l₂ ∧ y.1 = .tmpfs) := by
  obtain ⟨T, m, hs, htrace⟩ := calls_refine_store h0 hrun₁
  refine ⟨T, m, hs, htrace, fun v y hy => ?_⟩
  obtain ⟨T', m', bs', hs', hy', hwrote, -⟩ := hs.run_kept hy hrun₂
  exact ⟨bs', hs'.stored.get hy', hwrote⟩

theorem files_kept_written :
    ∃ T m, Sys.withFile.Shows T m ∧ Runs.Trace FileStore.Step OpenFiles.empty openCalls m ∧
      ∀ v y, m.content v = some y → ∃ bs', StoredFile Sys.written.st v (y.1, bs') ∧
        (bs' ≠ y.2 → Sys.withFile.WritesIn v [(.writeF, 2, [])] ∧ y.1 = .tmpfs) :=
  files_kept Sys.blank_initial Sys.blank_opens (Runs.Trace.nil.snoc Sys.withFile_does)

/-- What a task reads depends on the other tasks by their writes to the file only: after a run of the others
without one it gets the bytes that it would have got before. -/
theorem read_after_others {l₁ l₂ : List (SysOp × ℤ × List UInt8)} {u : ℕ} (h0 : s₀.Initial)
    (hrun₁ : Runs.Trace Sys.Does s₀ l₁ s) (hrun₂ : Runs.Trace Sys.Does s l₂ s')
    (hothers : ∀ j ∈ l₂, j.1.task ≠ some u) :
    ∃ T m, s.Shows T m ∧ Runs.Trace FileStore.Step OpenFiles.empty l₁ m ∧
      ∀ fd f, m.lookup u fd = some f → ¬ s.WritesIn f.vnode l₂ →
        ∀ count port x out s'', s'.Does (.read u fd true count port, x, out) s'' →
          out = (f.bytes.drop f.pos).take count ∧ x = out.length := by
  obtain ⟨T, m, hs, htrace⟩ := calls_refine_store h0 hrun₁
  refine ⟨T, m, hs, htrace, fun fd f hf hno count port x out s'' hread => ?_⟩
  obtain ⟨i, hi, hd, hhandle, hcontent⟩ := FileStore.lookup_eq_some hf
  obtain ⟨T', m', bs', hs', hcontent', hwrote, hkept⟩ := hs.run_kept hcontent hrun₂
  have hbytes : bs' = f.bytes := by
    by_contra hne
    exact hno (hwrote hne).1
  have hf' : m'.lookup u fd = some f := by
    refine FileStore.lookup_of_handle hi hd ((hkept u hothers i).trans hhandle) ?_
    rw [hcontent', hbytes]
  obtain ⟨T'', m'', -, hstep⟩ := hs'.step hread
  exact hstep.read_file hf'

def SysOp.openG : SysOp := .open 1 ⟨1, [47, 103], by decide⟩ 64

def SysOp.writeG : SysOp := .write 1 0 (some [7])

def Sys.withOther : Sys := Sys.atOne.next .openG

def Sys.otherWritten : Sys := Sys.withOther.next .writeG

/-- Another task makes a file `/g` and writes it. -/
def otherCalls : List (SysOp × ℤ × List UInt8) := [(.openG, 0, []), (.writeG, 1, [])]

theorem Sys.other_results : (Sys.atOne.step .openG).map Prod.snd = some 0 ∧
    (Sys.withOther.step .writeG).map Prod.snd = some 1 ∧
    (Sys.otherWritten.step .readRest).map Prod.snd = some 1 ∧
    Sys.otherWritten.delivered .readRest = [2] ∧
    (Sys.otherWritten.st.files Sys.otherWritten.firstFile).fPos + 5 < 2 ^ 64 := by
  decide

theorem Sys.atOne_others : Runs.Trace Sys.Does Sys.atOne otherCalls Sys.otherWritten := by
  have hopen : Sys.atOne.Does (.openG, 0, []) Sys.withOther :=
    Sys.atOne.does_next Sys.other_results.1 trivial trivial rfl
  refine (Runs.Trace.nil.snoc hopen).snoc
    (Sys.withOther.does_next Sys.other_results.2.1 trivial ?_ rfl)
  rintro bytes hb
  obtain rfl := Option.some.inj hb
  decide

theorem Sys.otherWritten_reads :
    Sys.otherWritten.Does (.readRest, 1, [2]) (Sys.otherWritten.next .readRest) :=
  Sys.otherWritten.does_next Sys.other_results.2.2.1 trivial (Sys.fits_read Sys.other_results.2.2.2.2)
    Sys.other_results.2.2.2.1

/-- The handle of the first file is on a file of the memory file system, and the other task has none on it. -/
theorem Sys.first_apart : Sys.atOne.firstFile ≠ 0 ∧
    (Sys.atOne.st.files Sys.atOne.firstFile).fOps = some .tmpfs ∧
    (Sys.atOne.st.files Sys.atOne.firstFile).vnode ≠ 0 ∧
    (Sys.atOne.st.internal (Sys.atOne.st.files Sys.atOne.firstFile).vnode).type = .file ∧
    ∀ i, (Sys.withOther.tasks 1).fdTable i ≠ 0 →
      (Sys.withOther.st.files ((Sys.withOther.tasks 1).fdTable i)).vnode ≠
        (Sys.atOne.st.files Sys.atOne.firstFile).vnode := by
  decide

/-- None of these calls writes to the first file. -/
theorem Sys.others_elsewhere :
    ¬ Sys.atOne.WritesIn (Sys.atOne.st.files Sys.atOne.firstFile).vnode otherCalls := by
  rintro ⟨l₁, j, l₂, s₁, heq, hrun, t, fd, buf, i, hop, -, -, h0, hv⟩
  obtain _ | ⟨j₁, _ | ⟨j₂, l₃⟩⟩ := l₁
  · obtain rfl := (List.cons.inj heq).1
    cases hop
  · have hrest := (List.cons.inj heq).2
    obtain rfl := (List.cons.inj heq).1
    obtain rfl := (List.cons.inj hrest).1
    obtain ⟨s₀, hnil, -, -, hstep, -⟩ := Runs.Trace.of_snoc (l := []) hrun
    obtain rfl := hnil.eq_of_nil
    have hs₁ : s₁ = Sys.withOther := by
      rw [Sys.withOther, Sys.next, hstep]
      rfl
    rw [hs₁] at h0 hv
    obtain ⟨rfl, -⟩ := SysOp.write.inj hop
    exact Sys.first_apart.2.2.2.2 i h0 hv
  · have hlen := congrArg List.length heq
    simp only [otherCalls, List.length_append, List.length_cons, List.length_nil] at hlen
    omega

/-- A task reads the byte that it has left in its file, after another task has made and written one. -/
theorem read_after_others_besides :
    ∃ T m f, Sys.atOne.Shows T m ∧ Runs.Trace FileStore.Step OpenFiles.empty useCalls m ∧
      m.lookup 0 0 = some f ∧ ¬ Sys.atOne.WritesIn f.vnode otherCalls ∧
      (f.bytes.drop f.pos).take 5 = [2] := by
  have hothers : ∀ j ∈ otherCalls, j.1.task ≠ some 0 := by
    rintro j hj
    rcases List.mem_pair.1 hj with rfl | rfl <;> decide
  obtain ⟨T, m, hs, htrace, hread⟩ :=
    read_after_others Sys.blank_initial Sys.blank_uses Sys.atOne_others hothers
  have hslot : slot 0 = some ⟨0, threadMaxFd_pos⟩ := rfl
  obtain ⟨h0, hops, hvnode, htype, -⟩ := Sys.first_apart
  obtain ⟨f, hf⟩ := hs.lookup_some hslot h0 hops hvnode htype
  have hv : (Sys.atOne.st.files Sys.atOne.firstFile).vnode = f.vnode := (hs.has hf hslot).vnode
  have helse : ¬ Sys.atOne.WritesIn f.vnode otherCalls := hv ▸ Sys.others_elsewhere
  exact ⟨T, m, f, hs, htrace, hf, helse, (hread 0 f hf helse 5 [] 1 [2] _ Sys.otherWritten_reads).1.symm⟩

/-- A task that goes back to where it has written finds its bytes, if no other task has written there. -/
theorem read_your_writes {l₁ l₂ : List (SysOp × ℤ × List UInt8)} {u : ℕ} {s₁ s₂ s₃ s₄ : Sys}
    {bytes : List UInt8} {pos : ℕ} {port : List UInt8} {y z : ℤ} (h0 : s₀.Initial)
    (hrun₁ : Runs.Trace Sys.Does s₀ l₁ s) (hwrite : s.Does (.write u fd (some bytes), bytes.length, []) s₁)
    (hrun₂ : Runs.Trace Sys.Does s₁ l₂ s₂) (hothers : ∀ j ∈ l₂, j.1.task ≠ some u)
    (hseek : s₂.Does (.lseek u fd pos seekSet, y, []) s₃)
    (hread : s₃.Does (.read u fd true bytes.length port, z, out) s₄) :
    ∃ T m, s.Shows T m ∧ Runs.Trace FileStore.Step OpenFiles.empty l₁ m ∧
      ∀ f, m.lookup u fd = some f → f.pos = pos → ¬ s₁.WritesIn f.vnode l₂ → out = bytes := by
  obtain ⟨T, m, hs, htrace⟩ := calls_refine_store h0 hrun₁
  refine ⟨T, m, hs, htrace, fun f hf hpos hno => ?_⟩
  obtain ⟨i, hi, hd, hhandle, hcontent⟩ := FileStore.lookup_eq_some hf
  obtain ⟨T₁, m₁, hs₁, hstep₁⟩ := hs.step hwrite
  -- The write has put the bytes where the descriptor was.
  obtain ⟨bs₁, hwritten, rfl⟩ : ∃ bs₁, OpenFiles.Written f.bytes f.pos bytes bs₁ ∧
      m₁ = FileStore.moveTo (m.setContent f.vnode (.tmpfs, bs₁)) f (f.pos + bytes.length) := by
    obtain ⟨-, hstep₁⟩ := hstep₁
    dsimp only at hstep₁
    rw [hf] at hstep₁
    dsimp only [Option.getD_some] at hstep₁
    split_ifs at hstep₁ with hnil
    · exact hstep₁.1.elim
    · unfold FileStore.WriteMay at hstep₁
      cases hkind : f.kind with
      | initramfs =>
          rw [hkind] at hstep₁
          have hx : (bytes.length : ℤ) = eacces := hstep₁.1
          have hneg : eacces < 0 := by decide
          omega
      | tmpfs =>
          rw [hkind] at hstep₁
          rcases hstep₁ with ⟨hx, -⟩ | ⟨-, hmoved⟩
          · have hneg : enomem < 0 := by decide
            omega
          · exact hmoved
  have hcontent₁ : (FileStore.moveTo (m.setContent f.vnode (.tmpfs, bs₁)) f (f.pos + bytes.length)).content
      f.vnode = some (.tmpfs, bs₁) := Function.update_self ..
  have hhandle₁ : (FileStore.moveTo (m.setContent f.vnode (.tmpfs, bs₁)) f (f.pos + bytes.length)).handle
      (u, i) = some (f.vnode, f.pos + bytes.length) := by
    rw [← hd]
    exact Function.update_self ..
  obtain ⟨T₂, m₂, bs₂, hs₂, hcontent₂, hwrote, hkept⟩ := hs₁.run_kept hcontent₁ hrun₂
  have hbytes : bs₂ = bs₁ := by
    by_contra hne
    exact hno (hwrote hne).1
  subst hbytes
  have hf₂ : m₂.lookup u fd = some ⟨(u, i), f.vnode, f.pos + bytes.length, .tmpfs, bs₂⟩ :=
    FileStore.lookup_of_handle hi rfl ((hkept u hothers i).trans hhandle₁) hcontent₂
  -- The seek goes back there.
  obtain ⟨T₃, m₃, hs₃, -, hstep₃⟩ := hs₂.step hseek
  rw [hf₂] at hstep₃
  have hlt : pos < 2 ^ 63 := by
    have hhas := hs.has hf hi
    rw [← hpos]
    exact hhas.pos_lt
  have htarget := FileStore.seekTarget_set ⟨(u, i), f.vnode, f.pos + bytes.length, .tmpfs, bs₂⟩ hlt
  have hm₃ := hstep₃.2
  rw [htarget] at hm₃
  subst hm₃
  have hf₃ : FileStore.lookup (m₂.moveTo ⟨(u, i), f.vnode, f.pos + bytes.length, .tmpfs, bs₂⟩ pos) u fd =
      some ⟨(u, i), f.vnode, pos, .tmpfs, bs₂⟩ :=
    FileStore.lookup_of_handle hi rfl (Function.update_self ..) hcontent₂
  obtain ⟨T₄, m₄, -, hstep₄⟩ := hs₃.step hread
  rw [(hstep₄.read_file hf₃).1, ← hpos]
  exact hwritten.read

def SysOp.mkdirB : SysOp := .mkdir 1 ⟨1, [47, 98], by decide⟩

def SysOp.forkChild : SysOp := .fork 2 (0, Task.idle)

def Sys.withDirB : Sys := Sys.written.next .mkdirB

def Sys.withChild : Sys := Sys.withDirB.next .forkChild

/-- The child of the fork. -/
def Thread.childBeside : Thread :=
  (sysFork Sys.withDirB.st (0, Task.idle)).2.getD ⟨0, 0, 0, 0, Task.idle⟩

def SysOp.reapChild : SysOp := .reap 2 Thread.childBeside

def Sys.besides : Sys := Sys.withChild.next .reapChild

/-- The first task is back at the start of its file. -/
def Sys.atStart : Sys := Sys.besides.next (.lseek 0 0 (0 : ℕ) seekSet)

/-- Another task makes a directory, and a thread is forked and reaped. -/
def besideCalls : List (SysOp × ℤ × List UInt8) :=
  [(.mkdirB, 0, []), (.forkChild, 0, []), (.reapChild, 0, [])]

theorem Sys.besides_results : (Sys.written.step .mkdirB).map Prod.snd = some 0 ∧
    (Sys.withDirB.step .forkChild).map Prod.snd = some 0 ∧
    (Sys.besides.step (.lseek 0 0 (0 : ℕ) seekSet)).map Prod.snd = some 0 ∧
    (Sys.atStart.step (.read 0 0 true 2 [])).map Prod.snd = some 2 ∧
    (Sys.atStart.st.files Sys.atStart.firstFile).fPos + 2 < 2 ^ 64 := by
  decide

theorem Sys.withChild_hasThread : Sys.withChild.st.HasThread Thread.childBeside := by
  have hdata : ∀ b ∈ Sys.withChild.st.heap.live, b.2 = sizeofVnode →
      (Sys.withChild.st.internal b.1).type = .file →
        (Sys.withChild.st.internal b.1).data ≠ Thread.childBeside.kernelStack ∧
          (Sys.withChild.st.internal b.1).data ≠ Thread.childBeside.userStack ∧
            (Sys.withChild.st.internal b.1).data ≠ Thread.childBeside.task := by decide
  exact ⟨by decide, by decide, by decide, fun v hv => hdata (v, sizeofVnode) hv rfl⟩

theorem Sys.written_besides : Runs.Trace Sys.Does Sys.written besideCalls Sys.besides := by
  have hmkdir : Sys.written.Does (.mkdirB, 0, []) Sys.withDirB :=
    Sys.written.does_next Sys.besides_results.1 trivial trivial rfl
  have hfork : Sys.withDirB.Does (.forkChild, 0, []) Sys.withChild :=
    Sys.withDirB.does_next Sys.besides_results.2.1 ⟨Or.inl rfl, fun _ => rfl⟩ trivial rfl
  exact ((Runs.Trace.nil.snoc hmkdir).snoc hfork).snoc
    (Sys.withChild.does_next rfl Sys.withChild_hasThread trivial rfl)

theorem read_your_writes_two :
    ∃ T m, Sys.withFile.Shows T m ∧ Runs.Trace FileStore.Step OpenFiles.empty openCalls m ∧
      ∀ f, m.lookup 0 0 = some f → f.pos = 0 → ¬ Sys.written.WritesIn f.vnode besideCalls →
        Sys.atStart.delivered (.read 0 0 true 2 []) = [1, 2] := by
  have hwrite : Sys.withFile.Does (.write 0 0 (some [1, 2]), ([1, 2] : List UInt8).length, []) Sys.written :=
    Sys.withFile_does
  have hothers : ∀ j ∈ besideCalls, j.1.task ≠ some 0 := by
    rintro j hj
    simp only [besideCalls, List.mem_cons, List.not_mem_nil, or_false] at hj
    rcases hj with rfl | rfl | rfl <;> decide
  have hseek : Sys.besides.Does (.lseek 0 0 (0 : ℕ) seekSet, 0, []) Sys.atStart :=
    Sys.besides.does_next Sys.besides_results.2.2.1 trivial ⟨by decide, by decide⟩ rfl
  exact read_your_writes Sys.blank_initial Sys.blank_opens hwrite Sys.written_besides hothers hseek
    (Sys.atStart.does_next Sys.besides_results.2.2.2.1 trivial (Sys.fits_read Sys.besides_results.2.2.2.2)
      rfl)

end OscKernel.Vfs
