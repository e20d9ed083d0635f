import OscKernel.InitramfsInit

/-!
# The walk over an image

The loops over an archive on any image, well-formed or not. A round moves the header by at least the size of
a header, whatever the two sizes in it are, although the step is computed with three kinds of numbers that
wrap around. So a loop ends after at most one round for each header that the image has room for.
-/

namespace OscKernel.Cpio

variable {m : ByteMem} {a header rounds : ℕ} {σ ρ : Type} {names : ℕ → List UInt8} {s : σ} {r : ρ}

theorem align_four_dvd (x : BitVec 32) : 4 ∣ (align x 4).toNat := by
  change 4 ∣ ((x + 4 - 1) &&& ~~~3#32).toNat
  rw [and_not_three, BitVec.toNat_shiftLeft, Nat.shiftLeft_eq]
  have hpow : (2 : ℕ) ^ 32 = 4 * 2 ^ 30 := by norm_num
  obtain ⟨y, hy⟩ : ∃ y, y = ((x + 4 - 1) >>> 2).toNat := ⟨_, rfl⟩
  rw [← hy, hpow]
  omega

def leastStep : ℕ := 112

/-- The size of the name wraps around when it is taken for a 32-bit number, and the difference with the
header wraps around when it is stored into one. Together they add a multiple of `2 ^ 32` to the header. -/
theorem nextHeader_advances (m : ByteMem) (hheader : header < 2 ^ 63 + 2 ^ 32) :
    header + leastStep ≤ nextHeader m header := by
  obtain ⟨x, hx⟩ := align_four_dvd (BitVec.ofNat 32 (headerSize + nameSize m header))
  have hname := (align (BitVec.ofNat 32 (headerSize + nameSize m header)) 4).isLt
  have hfile := (align (BitVec.ofNat 32 (fileSize m header)) 4).isLt
  have hhead : headerSize = 110 := rfl
  have hstep : leastStep = 112 := rfl
  simp only [nextHeader, hx] at hname ⊢
  omega

structure Image where
  cpioAddr : BitVec 32
  bytes : List UInt8
  small : bytes.length < 2 ^ 63

def Image.mem (i : Image) : ByteMem := fun x =>
  if x < i.cpioAddr.toNat then 0 else i.bytes.getD (x - i.cpioAddr.toNat) 0

def Match (m : ByteMem) (a : ℕ) : Prop := strcmp magic (arrayStr (ByteMem.read m a 6)) = 0

instance (m : ByteMem) (a : ℕ) : Decidable (Match m a) := inferInstanceAs (Decidable (_ = _))

/-- The bytes behind the image do not match. -/
theorem Image.match_le (i : Image) (h : Match i.mem a) (ha : i.cpioAddr.toNat ≤ a) :
    a + 6 ≤ i.cpioAddr.toNat + i.bytes.length := by
  by_contra hpast
  have heq := (strcmp_eq_zero (by decide) (arrayStr_nul _)).1 h
  have hlast : i.mem (a + 5) = 0 := by
    rw [Image.mem, if_neg (by omega)]
    exact List.getD_eq_default _ _ (by omega)
  have hmem : (0 : UInt8) ∈ ByteMem.read i.mem a 6 :=
    List.mem_map.2 ⟨5, by decide, hlast⟩
  have hlen : (arrayStr (ByteMem.read i.mem a 6)).length < 6 := by
    rw [arrayStr]
    refine lt_of_le_of_ne ?_ fun hsix => ?_
    · have := (List.takeWhile_prefix (l := ByteMem.read i.mem a 6) fun b => decide (b ≠ 0)).length_le
      rwa [ByteMem.read_length] at this
    · have hall : (ByteMem.read i.mem a 6).takeWhile (fun b => decide (b ≠ 0)) = ByteMem.read i.mem a 6 :=
        (List.takeWhile_prefix _).eq_of_length (by rw [hsix, ByteMem.read_length])
      have hbyte := List.takeWhile_eq_self_iff.1 hall 0 hmem
      simp at hbyte
  rw [← heq] at hlen
  exact absurd hlen (by decide)

/-- What a loop does with an entry, at the trailer, and at bytes that are no header. -/
structure Loop (σ ρ : Type) where
  visit : ℕ → List UInt8 → σ → σ ⊕ ρ
  atEnd : σ → ρ
  invalid : List UInt8 → σ → ρ

/-- The loop when the copy of a name does no harm: `names` is what it leaves in the buffer. -/
def Loop.run (l : Loop σ ρ) (m : ByteMem) (names : ℕ → List UInt8) : ℕ → ℕ → σ → Option ρ
  | 0, _, _ => none
  | rounds + 1, header, s =>
      if Match m header then
        if strcmp (names header) trailer = 0 then some (l.atEnd s)
        else match l.visit header (names header) s with
          | .inr r => some r
          | .inl s => l.run m names rounds (nextHeader m header) s
      else some (l.invalid (arrayStr (ByteMem.read m header 6)) s)

def listLoop : Loop (List Out) (List Out) where
  visit _ name out := .inl (out ++ [.puts name, .puts crlf])
  atEnd := id
  invalid _ out := out ++ [.puts (invalidHeader ++ crlf)]

def searchLoop (target : List UInt8) (found : ℕ → ρ) (none : List Out → ρ) : Loop Unit ρ where
  visit header name s := if strcmp name target = 0 then .inr (found header) else .inl s
  atEnd _ := none (missing target)
  invalid headerMagic _ := none (badHeader headerMagic)

def catLoop (m : ByteMem) (target : List UInt8) : Loop Unit (List Out) :=
  searchLoop target
    (fun header => (ByteMem.read m (fileAddr m header) (fileSize m header)).map Out.putc ++ [.puts crlf]) id

def execLoop (m : ByteMem) (target : List UInt8) (execAddr : ℕ) :
    Loop Unit (List Out × ByteMem × Option ℕ) :=
  searchLoop target
    (fun header =>
      ([], if execAddr = 0 then m else ByteMem.copy m execAddr (fileAddr m header) (fileSize m header),
        some (fileAddr m header)))
    fun out => (out, m, none)

def sizeLoop (m : ByteMem) (target : List UInt8) : Loop Unit (List Out × ℕ) :=
  searchLoop target (fun header => ([], fileSize m header)) fun out => (out, 0)

/-- The loop of `initramfs_init`, where `add` is what it does with the heap for an entry. -/
def initramfsLoop (add : ℕ → List UInt8 → Vfs.State → Vfs.State) : Loop Vfs.State Vfs.State where
  visit header name st := .inl (add header name st)
  atEnd := id
  invalid _ := id

/-- Where the names fit into the buffer, the loop is that of the functions. -/
theorem Loop.run_of_walk (l : Loop σ ρ) (h : walk m l.visit l.atEnd l.invalid rounds header s = some r)
    (hnames : ∀ x name, fileName m x = some name → names x = name) :
    l.run m names rounds header s = some r := by
  induction rounds generalizing header s with
  | zero => cases h
  | succ rounds ih =>
      rw [walk] at h
      rw [Loop.run]
      by_cases hmatch : Match m header
      · rw [if_pos hmatch]
        rw [if_pos (by exact hmatch)] at h
        obtain ⟨name, hname, h⟩ := Option.bind_eq_some_iff.1 h
        rw [hnames header name hname]
        by_cases hend : strcmp name trailer = 0
        · rw [if_pos hend] at h ⊢
          exact h
        · rw [if_neg hend] at h ⊢
          cases hv : l.visit header name s with
          | inr r' =>
              rw [hv] at h
              exact h
          | inl s' =>
              rw [hv] at h
              exact ih h
      · rw [if_neg hmatch]
        rw [if_neg (by exact hmatch)] at h
        exact h

theorem cpioList_run {out : List Out} (h : cpioList m a rounds = some out)
    (hnames : ∀ x name, fileName m x = some name → names x = name) :
    listLoop.run m names rounds a [] = some out :=
  Loop.run_of_walk listLoop h hnames

theorem cpioCat_run {target : List UInt8} {out : List Out} (h : cpioCat m a rounds target = some out)
    (hnames : ∀ x name, fileName m x = some name → names x = name) :
    (catLoop m target).run m names rounds a () = some out :=
  Loop.run_of_walk (catLoop m target) h hnames

theorem cpioGetExec_run {target : List UInt8} {execAddr : ℕ} {r : List Out × ByteMem × Option ℕ}
    (h : cpioGetExec m a rounds target execAddr = some r)
    (hnames : ∀ x name, fileName m x = some name → names x = name) :
    (execLoop m target execAddr).run m names rounds a () = some r :=
  Loop.run_of_walk (execLoop m target execAddr) h hnames

theorem cpioGetFileSize_run {target : List UInt8} {r : List Out × ℕ}
    (h : cpioGetFileSize m a rounds target = some r)
    (hnames : ∀ x name, fileName m x = some name → names x = name) :
    (sizeLoop m target).run m names rounds a () = some r :=
  Loop.run_of_walk (sizeLoop m target) h hnames

def addAt (m : ByteMem) (root header : ℕ) (name : List UInt8) (st : Vfs.State) : Vfs.State :=
  (Vfs.initramfsAddEntry st root ⟨name, ByteMem.read m (fileAddr m header) (fileSize m header)⟩).getD st

def addFile (root : ℕ) (_ : ℕ) (e : Newc.Entry) (st : Vfs.State) : Vfs.State ⊕ Vfs.State :=
  .inl ((Vfs.initramfsAddEntry st root (Vfs.entryOf e)).getD st)

theorem visitAll_addFile {es : List Newc.Entry} {st st' : Vfs.State} {root : ℕ} (a : ℕ)
    (h : (es.map Vfs.entryOf).foldlM (fun st e => Vfs.initramfsAddEntry st root e) st = some st') :
    visitAll (addFile root) a es st = .inl st' := by
  induction es generalizing st a with
  | nil => exact congrArg Sum.inl (Option.some.inj h)
  | cons e es ih =>
      rw [List.map_cons, List.foldlM_cons] at h
      obtain ⟨st₁, hadd, hrest⟩ := Option.bind_eq_some_iff.1 h
      rw [visitAll, addFile, hadd]
      exact ih _ hrest

/-- On a reserved archive, and with nothing wrong behind the arrays, `initramfs_init` is this loop over the
image. -/
theorem initramfsInitAt_run {beyond : ℕ → Vfs.Beyond} {st st' : Vfs.State} {T : Set ℕ} {addr root : ℕ}
    {es : List Newc.Entry} {bs : List UInt8} (h : Placed st.mem addr es bs)
    (hres : Vfs.Reserved st addr bs.length) (ht : Vfs.Tree st T) (hroot : root ∈ T)
    (hshort : ∀ e ∈ es, e.name.length + 1 < Vfs.maxFileName)
    (hroom : (st.internal root).numChildren + es.length ≤ Vfs.maxChildren) (hrounds : es.length < rounds)
    (hagree : Vfs.reached beyond addr es = es)
    (heq : Vfs.initramfsInitAt beyond addr rounds st root = some st')
    (hnames : ∀ x name, fileName st.mem x = some name → names x = name) :
    (initramfsLoop (addAt st.mem root)).run st.mem names rounds addr
      (st.setNode (st.vnodes root).internal fun e => { e with type := .directory }) = some st' := by
  rw [Vfs.initramfsInitAt_eq h hres ht hroot hshort hroom hrounds, hagree, Vfs.initramfsInit,
    if_neg (ht.ne_zero hroot)] at heq
  have hvisit : ∀ a, ∀ e ∈ es, EntryAt st.mem a e → ∀ st₁,
      (initramfsLoop (addAt st.mem root)).visit a e.name st₁ = addFile root a e st₁ := by
    intro a e _ hentry st₁
    have hdata : ByteMem.read st.mem (fileAddr st.mem a) (fileSize st.mem a) = e.data := by
      rw [hentry.fileSize]
      exact hentry.data
    change Sum.inl (addAt st.mem root a e.name st₁) = _
    rw [addAt, hdata]
    rfl
  refine Loop.run_of_walk _ ?_ hnames
  rw [h.runs hvisit hrounds, visitAll_addFile addr heq]
  rfl

/-- The end of the rounds is reached only behind the image. -/
theorem Image.run_isSome (i : Image) (l : Loop σ ρ) (ha : i.cpioAddr.toNat ≤ header)
    (hrounds : i.cpioAddr.toNat + i.bytes.length ≤ header + leastStep * rounds + 5) (s : σ) :
    (l.run i.mem names (rounds + 1) header s).isSome := by
  have haddr := i.cpioAddr.isLt
  have hsmall := i.small
  have hstep : leastStep = 112 := rfl
  induction rounds generalizing header s with
  | zero =>
      have hno : ¬ Match i.mem header := fun hmatch => by
        have := i.match_le hmatch ha
        omega
      rw [Loop.run, if_neg hno]
      rfl
  | succ rounds ih =>
      rw [Loop.run]
      split_ifs with hmatch hend
      · rfl
      · have hin := i.match_le hmatch ha
        have hnext := nextHeader_advances i.mem (show header < 2 ^ 63 + 2 ^ 32 by omega)
        rw [hstep] at hnext hrounds ih
        cases l.visit header (names header) s with
        | inr r => rfl
        | inl s' => exact ih (by omega) (by omega) s'
      · rfl

/-- One round for every 112 bytes of the image, and one that finds its end. -/
def Image.maxRounds (i : Image) : ℕ := (i.bytes.length + (leastStep - 1)) / leastStep + 1

theorem Image.run_ends (i : Image) (l : Loop σ ρ) (hrounds : i.maxRounds ≤ rounds) (s : σ) :
    (l.run i.mem names rounds i.cpioAddr.toNat s).isSome := by
  have hstep : leastStep = 112 := rfl
  rw [Image.maxRounds, hstep] at hrounds
  obtain ⟨k, rfl⟩ : ∃ k, rounds = k + 1 := ⟨rounds - 1, by omega⟩
  exact i.run_isSome l le_rfl (by rw [hstep]; omega) s

/-- On every image each round of the loops moves the header by at least 112, and the five loops end after
one round for every 112 bytes of the image and one more. -/
theorem archive_walk_ends (i : Image) (names : ℕ → List UInt8) :
    (∀ header, i.cpioAddr.toNat ≤ header → Match i.mem header →
      header + leastStep ≤ nextHeader i.mem header) ∧
    ∀ rounds, i.maxRounds ≤ rounds →
      (listLoop.run i.mem names rounds i.cpioAddr.toNat []).isSome ∧
      (∀ target, ((catLoop i.mem target).run i.mem names rounds i.cpioAddr.toNat ()).isSome) ∧
      (∀ target dst, ((execLoop i.mem target dst).run i.mem names rounds i.cpioAddr.toNat ()).isSome) ∧
      (∀ target, ((sizeLoop i.mem target).run i.mem names rounds i.cpioAddr.toNat ()).isSome) ∧
      ∀ add st, ((initramfsLoop add).run i.mem names rounds i.cpioAddr.toNat st).isSome := by
  refine ⟨fun header ha hmatch => ?_, fun rounds hrounds => ⟨?_, ?_, ?_, ?_, ?_⟩⟩
  · have hin := i.match_le hmatch ha
    have haddr := i.cpioAddr.isLt
    have hsmall := i.small
    exact nextHeader_advances i.mem (by omega)
  · exact i.run_ends _ hrounds _
  · exact fun target => i.run_ends _ hrounds _
  · exact fun target dst => i.run_ends _ hrounds _
  · exact fun target => i.run_ends _ hrounds _
  · exact fun add st => i.run_ends _ hrounds _

def hostile : Image := ⟨134217728, magic ++ List.replicate 106 70, by decide⟩

theorem archive_walk_ends_hostile :
    hostile.cpioAddr.toNat + leastStep ≤ nextHeader hostile.mem hostile.cpioAddr.toNat ∧
      (listLoop.run hostile.mem (fun _ => []) 2 hostile.cpioAddr.toNat []).isSome := by
  obtain ⟨hstep, hends⟩ := archive_walk_ends hostile fun _ => []
  exact ⟨hstep _ le_rfl (by decide), (hends 2 (by decide)).1⟩

end OscKernel.Cpio
