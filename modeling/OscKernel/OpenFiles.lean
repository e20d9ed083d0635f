import OscKernel.ByteMemory

/-!
# Files behind descriptors

A store has a list of bytes for each file, with the kind of the file, and for each open descriptor its file
and a position. Bytes that are written beyond the end of a file leave a hole, whose bytes may be any.
-/

/-- `F` are the files and `κ` their kinds, `D` are the descriptors. -/
structure OpenFiles (F D κ : Type*) where
  content : F → Option (κ × List UInt8)
  handle : D → Option (F × ℕ)

namespace OpenFiles

variable {F D κ : Type*}

def empty : OpenFiles F D κ := ⟨fun _ => none, fun _ => none⟩

def Written (bs : List UInt8) (pos : ℕ) (bytes bs' : List UInt8) : Prop :=
  ∃ hole : List UInt8, hole.length = pos - bs.length ∧ bs' = ByteMem.splice (bs ++ hole) pos bytes

variable [DecidableEq F] [DecidableEq D]

def setContent (m : OpenFiles F D κ) (v : F) (x : κ × List UInt8) : OpenFiles F D κ :=
  { m with content := Function.update m.content v (some x) }

def setHandle (m : OpenFiles F D κ) (d : D) (x : Option (F × ℕ)) : OpenFiles F D κ :=
  { m with handle := Function.update m.handle d x }

inductive Adds : List (κ × List UInt8) → (F → Option (κ × List UInt8)) → (F → Option (κ × List UInt8)) → Prop
  | nil (c : F → Option (κ × List UInt8)) : Adds [] c c
  | cons {c c' : F → Option (κ × List UInt8)} {v : F} {x : κ × List UInt8} {xs : List (κ × List UInt8)} :
      c v = none → Adds xs (Function.update c v (some x)) c' → Adds (x :: xs) c c'

/-- `c'` has at most one file more than `c`, and that one is `x`. -/
def OneMore (x : κ × List UInt8) (c c' : F → Option (κ × List UInt8)) : Prop := c' = c ∨ Adds [x] c c'

theorem Adds.kept {xs : List (κ × List UInt8)} {y : κ × List UInt8}
    {c c' : F → Option (κ × List UInt8)} {v : F} (h : Adds xs c c') (hv : c v = some y) : c' v = some y := by
  induction h with
  | nil c => exact hv
  | cons hnone _ ih =>
      refine ih ?_
      rwa [Function.update_of_ne]
      rintro rfl
      rw [hnone] at hv
      cases hv

theorem OneMore.kept {x y : κ × List UInt8} {c c' : F → Option (κ × List UInt8)} {v : F} (h : OneMore x c c')
    (hv : c v = some y) : c' v = some y := by
  rcases h with rfl | h
  · exact hv
  · exact h.kept hv

/-- The bytes written are found where they were written. -/
theorem Written.read {bs bytes bs' : List UInt8} {pos : ℕ} (h : Written bs pos bytes bs') :
    (bs'.drop pos).take bytes.length = bytes := by
  obtain ⟨hole, hlen, rfl⟩ := h
  have htake : ((bs ++ hole).take pos).length = pos := by
    rw [List.length_take, List.length_append]
    omega
  rw [ByteMem.splice, List.append_assoc, List.drop_left' htake, List.take_left]

end OpenFiles
