import OscKernel.HeapPlacement
import OscKernel.ReservedMemory
import OscKernel.Runs

/-!
# What a client finds in its block

A held block is memory of its own: whatever the allocator and the other clients do, a word in it has the
value that was last written to it, and only its holder may write to that word.
-/

namespace OscKernel.Alloc

open Linked Mm Relation Runs

variable {fixed : Finset DyadicBlock} {carved : List (ℕ × ℕ)} {F : ℕ → ℕ → Prop} {s s' : Sys}
  {p : BlockPool} {a b : ℕ × ℕ} {addr i j : ℕ} {L : Layout} {op : Op} {ops : List Op}

theorem Inv.area_clear (h : Inv fixed carved F s p) (ha : a ∈ s.live) (hi : i ∈ area a) :
    Clear carved (i / 8 * 8) := by
  intro c e he
  have hout := h.area_piece ha hi he
  have h16 : 16 ∣ e := (h.chunk_aligned he).1
  rw [headerSize] at hout
  omega

/-- Blocks start at whole words. -/
theorem Inv.start_aligned (h : Inv fixed carved F s p) (ha : a ∈ s.live) : 8 ∣ a.1 := by
  by_cases hs : a.2 ≤ maxChunkSize
  · exact (show 8 ∣ 16 by decide).trans (h.small_place ha hs).1
  · obtain ⟨k, -, hk⟩ := h.large_place ha (not_le.1 hs)
    exact (show 8 ∣ pageSize by decide).trans ((Nat.dvd_mul_left _ _).trans hk)

/-- Two held blocks do not share a word. -/
theorem Inv.word_owner (h : Inv fixed carved F s p) (ha : a ∈ s.live) (hb : b ∈ s.live) (hi : i ∈ area a)
    (hj : j ∈ area b) (hword : j / 8 = i / 8) : b = a := by
  have hstart : ∀ x ∈ s.live, ∀ k ∈ area x, k / 8 * 8 ∈ area x := by
    intro x hx k hk
    have h8 := h.start_aligned hx
    obtain ⟨hlo, hhi⟩ := Finset.mem_Ico.1 hk
    rw [area, Finset.mem_Ico]
    omega
  have hmem := hstart a ha i hi
  have hmem' := hword ▸ hstart b hb j hj
  have heq : b.1 = a.1 := by
    by_contra hne
    exact Finset.disjoint_left.1 (h.area_apart hb ha hne) hmem' hmem
  exact List.inj_on_of_nodup_map h.nodup hb ha heq

/-- The value of a word, `v` before, after an operation of a client. -/
def Op.writes (addr v : ℕ) : Op → ℕ
  | .write e value => if e = addr then value else v
  | .alloc _ => v
  | .free _ _ => v

def written (addr : ℕ) (ops : List Op) (v : ℕ) : ℕ := ops.foldl (Op.writes addr) v

def StepBy (L : Layout) (s : Sys) (op : Op) (s' : Sys) : Prop := op.Valid s ∧ s' = s.step L op

theorem written_concat (ops : List Op) (op : Op) (v : ℕ) :
    written addr (ops ++ [op]) v = op.writes addr (written addr ops v) := by
  rw [written, List.foldl_append]
  rfl

theorem Inv.step_word (h : Inv fixed carved F s p)
    (hker : rangePages 0x80000 L.stackTop ⊆ fixed.biUnion DyadicBlock.pages) (hstep : StepBy L s op s')
    (ha : a ∈ s.live) (hi : i ∈ area a) (hheld : op ≠ .free a.1 a.2) :
    a ∈ s'.live ∧ s'.heap.mem (i / 8 * 8) = op.writes (i / 8 * 8) (s.heap.mem (i / 8 * 8)) := by
  obtain ⟨hvalid, rfl⟩ := hstep
  rcases s with ⟨st, live⟩
  cases op with
  | alloc size =>
      refine ⟨?_, h.alloc_clear size fun h' => h'.area_clear ha hi⟩
      rw [step_alloc L st live size rfl]
      dsimp only
      split_ifs
      · exact ha
      · exact List.mem_cons_of_mem _ ha
  | free ptr size =>
      refine ⟨?_, h.free_clear hker hvalid (h.area_clear ha hi)⟩
      refine (List.mem_erase_of_ne ?_).2 ha
      rintro rfl
      exact hheld rfl
  | write e value =>
      refine ⟨ha, ?_⟩
      change (st.store e value).mem (i / 8 * 8) = if e = i / 8 * 8 then value else st.mem (i / 8 * 8)
      rw [store_mem]
      by_cases he : e = i / 8 * 8
      · rw [if_pos he, he, Function.update_self]
      · rw [if_neg he, Function.update_of_ne (Ne.symm he)]

theorem StepBy.run (htrace : Trace (StepBy L) s ops s') : ReflTransGen (Sys.Step L) s s' := by
  induction htrace with
  | nil => exact ReflTransGen.refl
  | snoc _ hstep ih => exact ih.tail ⟨_, hstep.1, hstep.2⟩

/-- While a block is held, each word of it has the value last written to it, and no other held block has
a part of that word. -/
theorem block_kept {m : Images} {mem : ℕ → ℕ} {kmemCaches : ℕ → KmemCache} (h : m.Apart L)
    (hrun : ReflTransGen (Sys.Step L) ⟨m.boot L mem kmemCaches, []⟩ s) (ha : a ∈ s.live) (hi : i ∈ area a)
    (htrace : Trace (StepBy L) s ops s') (hheld : Op.free a.1 a.2 ∉ ops) :
    a ∈ s'.live ∧ s'.heap.mem (i / 8 * 8) = written (i / 8 * 8) ops (s.heap.mem (i / 8 * 8)) ∧
      ∀ b ∈ s'.live, ∀ j ∈ area b, j / 8 = i / 8 → b = a := by
  obtain ⟨fixed, hfixed, hrunning, -⟩ := h.keeping hrun
  have hker := hfixed ▸ m.kernel_pages L
  have hlast : a ∈ s'.live ∧
      s'.heap.mem (i / 8 * 8) = written (i / 8 * 8) ops (s.heap.mem (i / 8 * 8)) := by
    induction htrace with
    | nil => exact ⟨ha, rfl⟩
    | snoc htrace hstep ih =>
        rename_i ops op s₁ s₂
        rw [List.mem_append, not_or] at hheld
        obtain ⟨hin, hword⟩ := ih hheld.1
        obtain ⟨carved, F, p, hinv⟩ := (running_stable hker).run hrunning (StepBy.run htrace)
        obtain ⟨hin', hword'⟩ := hinv.step_word hker hstep hin hi fun heq =>
          hheld.2 (heq ▸ List.mem_singleton_self _)
        refine ⟨hin', ?_⟩
        rw [hword', hword, written_concat]
  obtain ⟨carved, F, p, hinv⟩ := (running_stable hker).run hrunning (StepBy.run htrace)
  exact ⟨hlast.1, hlast.2, fun b hb j hj hword => hinv.word_owner hlast.1 hb hi hj hword⟩

def sampleHeap : Sys :=
  Sys.step sampleLayout ⟨sampleImages.boot sampleLayout (fun _ => 0) (fun _ => ⟨0, 0⟩), []⟩ (.alloc 100)

theorem sampleHeap_live : sampleHeap.live = [(0x8202f40, 100)] := by decide +kernel

/-- The last word of the block, after a write to it. -/
theorem block_kept_last : let s := sampleHeap.step sampleLayout (.write 0x8202fa0 7)
    (0x8202f40, 100) ∈ s.live ∧ s.heap.mem 0x8202fa0 = 7 ∧
      ∀ b ∈ s.live, ∀ j ∈ area b, j / 8 = 0x8202fa3 / 8 → b = (0x8202f40, 100) := by
  have hmem : (0x8202f40, 100) ∈ sampleHeap.live := by
    rw [sampleHeap_live]
    exact List.mem_singleton_self _
  have hvalid : Op.Valid sampleHeap (.write 0x8202fa0 7) :=
    ⟨by decide, _, hmem, 0x8202fa3, by decide, by decide, by decide⟩
  exact block_kept sampleImages_apart (ReflTransGen.single ⟨.alloc 100, trivial, rfl⟩) hmem
    (i := 0x8202fa3) (by decide) (Trace.nil.snoc ⟨hvalid, rfl⟩) (by decide)

end OscKernel.Alloc
