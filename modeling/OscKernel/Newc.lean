import OscKernel.ByteMemory

/-!
# The newc archive format

A member of an archive is a header of 110 bytes, a name with its terminator, and data, where the name and
the data are padded to multiples of four. Two fields of the header give the length of the name and that of
the data as eight hexadecimal digits in either case. An archive is a sequence of members that ends with a
member whose name is `TRAILER!!!`.
-/

namespace Newc

variable {m : ByteMem} {a v n : ℕ} {l bs name data t : List UInt8}

def hexChar (upper : Bool) (d : ℕ) : UInt8 :=
  UInt8.ofNat (if d < 10 then 48 + d else if upper then 55 + d else 87 + d)

def value (v : ℕ) (ds : List (ℕ × Bool)) : ℕ := ds.foldl (fun v d => v * 16 + d.1) v

def Field (v : ℕ) (l : List UInt8) : Prop :=
  ∃ ds : List (ℕ × Bool), ds.length = 8 ∧ (∀ d ∈ ds, d.1 < 16) ∧ value 0 ds = v ∧
    l = ds.map fun d => hexChar d.2 d.1

theorem Field.length (h : Field v l) : l.length = 8 := by
  obtain ⟨ds, hlen, -, -, rfl⟩ := h
  rw [List.length_map, hlen]

def hexField (upper : Bool) (v : ℕ) : List UInt8 :=
  ([7, 6, 5, 4, 3, 2, 1, 0] : List ℕ).map fun i => hexChar upper (v / 16 ^ i % 16)

theorem field_hexField (upper : Bool) (h : v < 2 ^ 32) : Field v (hexField upper v) := by
  refine ⟨([7, 6, 5, 4, 3, 2, 1, 0] : List ℕ).map fun i => (v / 16 ^ i % 16, upper), rfl, ?_, ?_, rfl⟩
  · intro d hd
    obtain ⟨i, -, rfl⟩ := List.mem_map.1 hd
    exact Nat.mod_lt _ (by decide)
  · simp only [value, List.map_cons, List.map_nil, List.foldl_cons, List.foldl_nil]
    omega

structure Entry where
  name : List UInt8
  data : List UInt8

def magic : List UInt8 := [48, 55, 48, 55, 48, 49]
def trailerName : List UInt8 := [84, 82, 65, 73, 76, 69, 82, 33, 33, 33]
def headerSize : ℕ := 110

/-- The number of bytes between `n` and the next multiple of four. -/
def padding (n : ℕ) : ℕ := (4 - n % 4) % 4

/-- The header, the name and its padding: the other fields and the padding are any bytes. -/
def Front (name : List UInt8) (size : ℕ) (l : List UInt8) : Prop :=
  ∃ ids filesize devs namesize check pad : List UInt8, ids.length = 48 ∧ Field size filesize ∧
    devs.length = 32 ∧ Field (name.length + 1) namesize ∧ check.length = 8 ∧
    pad.length = padding (headerSize + (name.length + 1)) ∧
    l = (magic ++ ids ++ filesize ++ devs ++ namesize ++ check) ++ (name ++ [0]) ++ pad

/-- A member is its front, its data and the padding of the data. -/
def Member (e : Entry) (l : List UInt8) : Prop :=
  ∃ front pad, Front e.name e.data.length front ∧ pad.length = padding e.data.length ∧
    l = front ++ e.data ++ pad

inductive Members : List Entry → List UInt8 → Prop
  | nil : Members [] []
  | cons {e : Entry} {es : List Entry} {l bs : List UInt8} :
      Member e l → Members es bs → Members (e :: es) (l ++ bs)

def Archive (es : List Entry) (bs : List UInt8) : Prop :=
  ∃ ms l, Members es ms ∧ Member ⟨trailerName, []⟩ l ∧ bs = ms ++ l

/-- The data of the first entry with the name `t` is `data`, at position `pos` of the archive. -/
def DataAt (t : List UInt8) (es : List Entry) (bs : List UInt8) (pos : ℕ) (data : List UInt8) : Prop :=
  ∃ es₁ e es₂ ms front rest, es = es₁ ++ e :: es₂ ∧ (∀ x ∈ es₁, x.name ≠ t) ∧ e.name = t ∧ e.data = data ∧
    Members es₁ ms ∧ Front t data.length front ∧ bs = ms ++ front ++ data ++ rest ∧
    pos = ms.length + front.length

theorem Front.length {size : ℕ} (h : Front name size l) :
    l.length = headerSize + (name.length + 1) + padding (headerSize + (name.length + 1)) := by
  obtain ⟨ids, filesize, devs, namesize, check, pad, hids, hfile, hdevs, hname, hcheck, hpad, rfl⟩ := h
  simp only [List.length_append, hids, hfile.length, hdevs, hname.length, hcheck, hpad, magic, headerSize,
    List.length_cons, List.length_nil]

theorem add_padding (n : ℕ) : n + padding n = (n + 3) / 4 * 4 := by
  rw [padding]
  omega

theorem Front.length_eq {size : ℕ} (h : Front name size l) :
    l.length = (headerSize + (name.length + 1) + 3) / 4 * 4 := by
  rw [h.length, add_padding]

theorem Member.length {e : Entry} (h : Member e l) :
    l.length = (headerSize + (e.name.length + 1) + 3) / 4 * 4 + (e.data.length + 3) / 4 * 4 := by
  obtain ⟨front, pad, hfront, hpad, rfl⟩ := h
  rw [List.length_append, List.length_append, hfront.length_eq, hpad, Nat.add_assoc, add_padding]

theorem Members.split {es₁ es₂ : List Entry} {e : Entry} (h : Members (es₁ ++ e :: es₂) bs) :
    ∃ ms₁ l ms₂, Members es₁ ms₁ ∧ Member e l ∧ bs = ms₁ ++ (l ++ ms₂) := by
  induction es₁ generalizing bs with
  | nil =>
      cases h with
      | cons hl hms => exact ⟨[], _, _, Members.nil, hl, rfl⟩
  | cons x es₁ ih =>
      cases h with
      | cons hx hms =>
          obtain ⟨ms₁, l, ms₂, hms₁, hl, rfl⟩ := ih hms
          exact ⟨_, l, ms₂, Members.cons hx hms₁, hl, (List.append_assoc ..).symm⟩

def encodeFront (upper : Bool) (name : List UInt8) (size : ℕ) : List UInt8 :=
  (magic ++ List.replicate 48 48 ++ hexField upper size ++ List.replicate 32 48 ++
    hexField upper (name.length + 1) ++ List.replicate 8 48) ++ (name ++ [0]) ++
    List.replicate (padding (headerSize + (name.length + 1))) 0

def encodeMember (upper : Bool) (e : Entry) : List UInt8 :=
  encodeFront upper e.name e.data.length ++ e.data ++ List.replicate (padding e.data.length) 0

def encode (upper : Bool) (es : List Entry) : List UInt8 :=
  es.flatMap (encodeMember upper) ++ encodeMember upper ⟨trailerName, []⟩

theorem member_encodeMember (upper : Bool) (e : Entry) (hname : e.name.length + 1 < 2 ^ 32)
    (hdata : e.data.length < 2 ^ 32) : Member e (encodeMember upper e) :=
  ⟨_, _, ⟨_, _, _, _, _, _, List.length_replicate, field_hexField upper hdata, List.length_replicate,
    field_hexField upper hname, List.length_replicate, List.length_replicate, rfl⟩,
    List.length_replicate, rfl⟩

/-- Every list of entries has an archive. -/
theorem archive_encode (upper : Bool) {es : List Entry}
    (h : ∀ e ∈ es, e.name.length + 1 < 2 ^ 32 ∧ e.data.length < 2 ^ 32) : Archive es (encode upper es) := by
  refine ⟨_, _, ?_, member_encodeMember upper _ (by decide) (by decide), rfl⟩
  induction es with
  | nil => exact Members.nil
  | cons e es ih =>
      rw [List.flatMap_cons]
      obtain ⟨hname, hdata⟩ := h e List.mem_cons_self
      exact Members.cons (member_encodeMember upper e hname hdata)
        (ih fun x hx => h x (List.mem_cons_of_mem _ hx))

end Newc
