import OscKernel.ByteOrder

/-!
# The serial boot protocol

`load_kernel` of the bootloader (`load.c`) and the sender `send_kernel.py`. `char` is unsigned.
-/

namespace OscKernel.Boot

open ByteOrder ByteMem

inductive Out where
  | puts (text : String)
  | hex (d : ℕ)

/-- `input` are the bytes that arrive on the serial line, and `out` what has been printed. -/
structure State where
  input : List UInt8
  mem : ByteMem
  out : List Out

def State.print (s : State) (o : List Out) : State := { s with out := s.out ++ o }

def uartGetc (s : State) : Option (UInt8 × State) :=
  match s.input with
  | [] => none
  | c :: rest => some (c, { s with input := rest })

def kernelAddr : ℕ := 0x80000

def magic : List UInt8 := [66, 79, 79, 84]

/-- The loop that compares the magic number and stops at the first byte that differs. -/
def readMagic : List UInt8 → State → Option (Bool × State)
  | [], s => some (true, s)
  | c :: rest, s => (uartGetc s).bind fun r => if r.1 ≠ c then some (false, r.2) else readMagic rest r.2

/-- The rounds `i` to `i + n - 1` of the loops that read an `unsigned int`. -/
def readWord : ℕ → ℕ → ℕ → State → Option (ℕ × State)
  | 0, _, acc, s => some (acc, s)
  | n + 1, i, acc, s => (uartGetc s).bind fun r => readWord n (i + 1) (acc ||| r.1.toNat <<< (i * 8)) r.2

def readImage : ℕ → ℕ → State → Option State
  | 0, _, s => some s
  | n + 1, a, s => (uartGetc s).bind fun r =>
      readImage n (a + 1) { r.2 with mem := Function.update r.2.mem a r.1 }

def sumLoop (m : ByteMem) : ℕ → ℕ → ℕ → ℕ
  | 0, _, sum => sum
  | n + 1, a, sum => sumLoop m n (a + 1) ((sum + (m a).toNat) % 2 ^ 32)

/-- The image is stored before its checksum is compared. The result is the address that is jumped to,
or `none` where the function returns. -/
def loadImage (size chksum : ℕ) (s : State) : Option (Option ℕ × State) :=
  (readImage size kernelAddr s).map fun s =>
    let s := s.print [.puts "Kernel loaded.\r\n"]
    if sumLoop s.mem size kernelAddr 0 = chksum then
      (some kernelAddr, s.print [.puts "Checksum passed.\r\n"])
    else (none, s.print [.puts "Checksum failed.\r\n"])

def loadKernel (s : State) : Option (Option ℕ × State) :=
  (readMagic magic s).bind fun r =>
    if r.1 then
      (readWord 4 0 0 (r.2.print [.puts "Valid kernel image.\r\n"])).bind fun size =>
      (readWord 4 0 0 (size.2.print [.puts "Kernel size: ", .hex size.1, .puts "\r\n"])).bind
        fun chksum =>
      loadImage size.1 chksum.1
        (chksum.2.print [.puts "Checksum: ", .hex chksum.1, .puts "\r\n"])
    else some (none, r.2.print [.puts "Invalid kernel image.\r\n"])

def checksum (data : List UInt8) : ℕ := data.foldl (fun sum b => (sum + b.toNat) &&& 0xffffffff) 0

def pack (a b c : ℕ) : List UInt8 := bytes 4 a ++ bytes 4 b ++ bytes 4 c

def sendKernel (data : List UInt8) : List UInt8 :=
  pack 0x544F4F42 data.length (checksum data) ++ data

variable {s : State} {l rest : List UInt8} {n i acc : ℕ}

theorem uartGetc_cons {c : UInt8} (h : s.input = c :: l ++ rest) :
    uartGetc s = some (c, { s with input := l ++ rest }) := by
  rw [uartGetc, h]
  rfl

theorem readMagic_append (m : List UInt8) (h : s.input = l ++ rest) (hlen : l.length = m.length) :
    ∃ s', readMagic m s = some (decide (l = m), s') ∧ s'.mem = s.mem ∧
      (l = m → s'.input = rest) := by
  induction m generalizing l s with
  | nil =>
      rw [List.length_nil, List.length_eq_zero_iff] at hlen
      subst hlen
      exact ⟨s, rfl, rfl, fun _ => h⟩
  | cons c m ih =>
      obtain ⟨d, l, rfl⟩ := List.exists_cons_of_length_eq_add_one hlen
      rw [readMagic, uartGetc_cons h, Option.bind_some]
      by_cases hd : d = c
      · obtain ⟨s', heq, hmem, hin⟩ := ih (s := { s with input := l ++ rest }) rfl (Nat.succ.inj hlen)
        have hiff : d :: l = c :: m ↔ l = m := by rw [hd, List.cons_inj_right]
        rw [if_neg (not_not.2 hd)]
        refine ⟨s', ?_, hmem, fun he => hin (hiff.1 he)⟩
        rw [decide_eq_decide.2 hiff]
        exact heq
      · have hne : d :: l ≠ c :: m := fun he => hd (List.cons.inj he).1
        rw [if_pos hd, decide_eq_false hne]
        exact ⟨_, rfl, rfl, fun he => absurd he hne⟩

theorem readWord_append (h : s.input = l ++ rest) (hacc : acc < 256 ^ i) :
    ∃ s', readWord l.length i acc s = some (acc + 256 ^ i * value l, s') ∧ s'.mem = s.mem ∧
      s'.input = rest := by
  induction l generalizing i acc s with
  | nil => exact ⟨s, rfl, rfl, h⟩
  | cons c l ih =>
      have hc := c.toNat_lt
      have hlt : acc + 256 ^ i * c.toNat < 256 ^ (i + 1) := by
        have : 256 ^ i * c.toNat ≤ 256 ^ i * 255 := Nat.mul_le_mul_left _ (by omega)
        rw [pow_succ]
        omega
      obtain ⟨s', heq, hmem, hin⟩ := ih (s := { s with input := l ++ rest }) rfl hlt
      refine ⟨s', ?_, hmem, hin⟩
      rw [List.length_cons, readWord, uartGetc_cons h, Option.bind_some, or_shiftLeft c hacc]
      dsimp only
      rw [heq, value_cons, pow_succ]
      congr 2
      ring

/-- The loops of the header read a little-endian number. -/
theorem readWord_four (h : s.input = l ++ rest) (hlen : l.length = 4) :
    ∃ s', readWord 4 0 0 s = some (value l, s') ∧ s'.mem = s.mem ∧ s'.input = rest := by
  have hread := readWord_append (i := 0) h (by decide : 0 < 256 ^ 0)
  rwa [hlen, pow_zero, Nat.one_mul, Nat.zero_add] at hread

theorem readImage_append (a : ℕ) (h : s.input = l ++ rest) :
    ∃ s', readImage l.length a s = some s' ∧ s'.mem = s.mem.write a l ∧ s'.input = rest := by
  induction l generalizing a s with
  | nil => exact ⟨s, rfl, rfl, h⟩
  | cons c l ih =>
      obtain ⟨s', heq, hmem, hin⟩ :=
        ih (s := { s with input := l ++ rest, mem := Function.update s.mem a c }) (a + 1) rfl
      refine ⟨s', ?_, hmem, hin⟩
      rw [List.length_cons, readImage, uartGetc_cons h, Option.bind_some]
      exact heq

def byteSum (l : List UInt8) : ℕ := (l.map UInt8.toNat).sum % 2 ^ 32

theorem byteSum_lt (l : List UInt8) : byteSum l < 2 ^ 32 := Nat.mod_lt _ (by decide)

theorem sumLoop_eq (m : ByteMem) (a sum : ℕ) (hsum : sum < 2 ^ 32) :
    sumLoop m n a sum = (sum + ((m.read a n).map UInt8.toNat).sum) % 2 ^ 32 := by
  induction n generalizing a sum with
  | zero =>
      change sum = (sum + 0) % 2 ^ 32
      rw [Nat.add_zero, Nat.mod_eq_of_lt hsum]
  | succ n ih =>
      have hread : m.read a (n + 1) = m a :: m.read (a + 1) n := by
        rw [Nat.add_comm, read_append]
        rfl
      rw [sumLoop, ih _ _ (Nat.mod_lt _ (by decide)), Nat.mod_add_mod, hread, List.map_cons,
        List.sum_cons, Nat.add_assoc]

theorem sumLoop_write (m : ByteMem) (a : ℕ) (l : List UInt8) :
    sumLoop (m.write a l) l.length a 0 = byteSum l := by
  rw [sumLoop_eq _ _ _ (by decide), read_write_same, Nat.zero_add]
  rfl

theorem checksum_eq (data : List UInt8) : checksum data = byteSum data := by
  have hloop : ∀ sum < 2 ^ 32, data.foldl (fun sum b => (sum + b.toNat) &&& 0xffffffff) sum =
      (sum + (data.map UInt8.toNat).sum) % 2 ^ 32 := by
    induction data with
    | nil => exact fun sum hsum => (Nat.mod_eq_of_lt hsum).symm
    | cons b data ih =>
        intro sum _
        have hmask : (sum + b.toNat) &&& 0xffffffff = (sum + b.toNat) % 2 ^ 32 :=
          Nat.and_two_pow_sub_one_eq_mod _ 32
        rw [List.foldl_cons, hmask, ih _ (Nat.mod_lt _ (by decide)), Nat.mod_add_mod, List.map_cons,
          List.sum_cons, Nat.add_assoc]
  rw [checksum, hloop 0 (by decide), Nat.zero_add]
  rfl

/-- A stream cut into the fields of its header and the payload that the size field announces. -/
structure Frame where
  magic : List UInt8
  size : List UInt8
  chksum : List UInt8
  payload : List UInt8
  magic_length : magic.length = 4
  size_length : size.length = 4
  chksum_length : chksum.length = 4
  payload_length : payload.length = value size

def Frame.stream (f : Frame) : List UInt8 := f.magic ++ f.size ++ f.chksum ++ f.payload

def Frame.Valid (f : Frame) : Prop := f.magic = Boot.magic ∧ byteSum f.payload = value f.chksum

theorem loadImage_append {size : ℕ} (chksum : ℕ) (h : s.input = l ++ rest) (hlen : l.length = size) :
    ∃ s', loadImage size chksum s =
        some (if byteSum l = chksum then some kernelAddr else none, s') ∧
      s'.mem = s.mem.write kernelAddr l ∧ s'.input = rest := by
  subst hlen
  obtain ⟨s', heq, hmem, hin⟩ := readImage_append kernelAddr h
  have hsum : sumLoop s'.mem l.length kernelAddr 0 = byteSum l := by
    rw [hmem, sumLoop_write]
  by_cases hchk : byteSum l = chksum
  · refine ⟨s'.print [.puts "Kernel loaded.\r\n"] |>.print [.puts "Checksum passed.\r\n"], ?_,
      hmem, hin⟩
    rw [loadImage, heq, if_pos hchk]
    exact congrArg some (if_pos (hsum.trans hchk))
  · refine ⟨s'.print [.puts "Kernel loaded.\r\n"] |>.print [.puts "Checksum failed.\r\n"], ?_,
      hmem, hin⟩
    rw [loadImage, heq, if_neg hchk]
    exact congrArg some (if_neg fun he => hchk (hsum.symm.trans he))

theorem loadKernel_valid_magic (f : Frame) (h : s.input = f.stream ++ rest)
    (hmagic : f.magic = Boot.magic) : ∃ s', loadKernel s =
        some (if byteSum f.payload = value f.chksum then some kernelAddr else none, s') ∧
      s'.mem = s.mem.write kernelAddr f.payload ∧ s'.input = rest := by
  rw [Frame.stream, List.append_assoc, List.append_assoc, List.append_assoc] at h
  obtain ⟨s₁, hread₁, hmem₁, hin₁⟩ := readMagic_append Boot.magic h f.magic_length
  obtain ⟨s₂, hread₂, hmem₂, hin₂⟩ := readWord_four
    (s := s₁.print [.puts "Valid kernel image.\r\n"]) (hin₁ hmagic) f.size_length
  obtain ⟨s₃, hread₃, hmem₃, hin₃⟩ := readWord_four (s := s₂.print
    [.puts "Kernel size: ", .hex (value f.size), .puts "\r\n"]) hin₂ f.chksum_length
  obtain ⟨s₄, hload, hmem₄, hin₄⟩ := loadImage_append (value f.chksum) (s := s₃.print
    [.puts "Checksum: ", .hex (value f.chksum), .puts "\r\n"]) hin₃ f.payload_length
  refine ⟨s₄, ?_, ?_, hin₄⟩
  · rw [loadKernel, hread₁, Option.bind_some, if_pos (decide_eq_true hmagic), hread₂,
      Option.bind_some, hread₃, Option.bind_some, hload]
  · rw [hmem₄]
    exact congrArg (ByteMem.write · kernelAddr f.payload) (hmem₃.trans (hmem₂.trans hmem₁))

theorem loadKernel_invalid_magic (f : Frame) (h : s.input = f.stream ++ rest)
    (hmagic : f.magic ≠ Boot.magic) : ∃ s', loadKernel s = some (none, s') := by
  rw [Frame.stream, List.append_assoc, List.append_assoc, List.append_assoc] at h
  obtain ⟨s₁, hread₁, -, -⟩ := readMagic_append Boot.magic h f.magic_length
  refine ⟨s₁.print [.puts "Invalid kernel image.\r\n"], ?_⟩
  rw [loadKernel, hread₁, Option.bind_some, if_neg (by simpa using hmagic)]

/-- On a whole frame the loader jumps exactly if the frame is valid. -/
theorem loadKernel_jumps_iff (f : Frame) (h : s.input = f.stream ++ rest) :
    ∃ r s', loadKernel s = some (r, s') ∧ (r = some kernelAddr ↔ f.Valid) ∧
      (r = none ↔ ¬ f.Valid) := by
  by_cases hmagic : f.magic = Boot.magic
  · obtain ⟨s', hload, -⟩ := loadKernel_valid_magic f h hmagic
    refine ⟨_, s', hload, ?_, ?_⟩
    · by_cases hsum : byteSum f.payload = value f.chksum <;> simp [Frame.Valid, hmagic, hsum]
    · by_cases hsum : byteSum f.payload = value f.chksum <;> simp [Frame.Valid, hmagic, hsum]
  · obtain ⟨s', hload⟩ := loadKernel_invalid_magic f h hmagic
    exact ⟨none, s', hload, by simp [Frame.Valid, hmagic], by simp [Frame.Valid, hmagic]⟩

def sentFrame (image : List UInt8) (h : image.length < 2 ^ 31) : Frame where
  magic := bytes 4 0x544F4F42
  size := bytes 4 image.length
  chksum := bytes 4 (checksum image)
  payload := image
  magic_length := bytes_length ..
  size_length := bytes_length ..
  chksum_length := bytes_length ..
  payload_length := (value_bytes_of_lt (h.trans (by decide))).symm

theorem sentFrame_valid (image : List UInt8) (h : image.length < 2 ^ 31) :
    (sentFrame image h).Valid := by
  refine ⟨rfl, ?_⟩
  change byteSum image = value (bytes 4 (checksum image))
  rw [checksum_eq]
  exact (value_bytes_of_lt (byteSum_lt image)).symm

/-- What the sender emits for an image is loaded and started, and nothing behind it is read. Any other
stream that is received in full is started only if its frame is valid. -/
theorem load_kernel_protocol :
    (∀ (image rest : List UInt8) (s : State), image.length < 2 ^ 31 →
      s.input = sendKernel image ++ rest → ∃ s', loadKernel s = some (some kernelAddr, s') ∧
        s'.input = rest ∧ s'.mem.Has kernelAddr image) ∧
    ∀ (f : Frame) (rest : List UInt8) (s : State), value f.size < 2 ^ 31 →
      s.input = f.stream ++ rest → ∃ r s', loadKernel s = some (r, s') ∧
        (r = some kernelAddr ↔ f.Valid) ∧ (r = none ↔ ¬ f.Valid) := by
  refine ⟨fun image rest s hlen h => ?_, fun f rest s _ h => loadKernel_jumps_iff f h⟩
  have hvalid := sentFrame_valid image hlen
  obtain ⟨s', hload, hmem, hin⟩ := loadKernel_valid_magic (sentFrame image hlen) h hvalid.1
  rw [if_pos hvalid.2] at hload
  refine ⟨s', hload, hin, ?_⟩
  rw [hmem]
  exact read_write_same ..

theorem load_kernel_protocol_small :
    ∃ s', loadKernel ⟨sendKernel [1, 2, 255], fun _ => 0, []⟩ = some (some kernelAddr, s') ∧
      s'.input = [] ∧ s'.mem.Has kernelAddr [1, 2, 255] :=
  load_kernel_protocol.1 [1, 2, 255] [] _ (by decide) (List.append_nil _).symm

end OscKernel.Boot
